import OsConcepts.Proofs.Chunks
import OsConcepts.Proofs.Touches

/-!
# The range of an `int`

Reads and writes compute positions, sizes and buffer lengths as `int`s and take
the clipping, the growth and the length of the buffer from different sums. With
every open descriptor inside a file of at most 268 blocks (`PointersFit`) the
sums agree and every copy stays in its buffer exactly as long as they stay in
range: the end of a read must be an `int`, and the end of a write, rounded up to
a whole block, as well. One past that, a read takes the whole count for
available and leaves the buffer.
-/

namespace OsConcepts.Sfs

open OsConcepts

variable {s s' : Sfs} {f g : Fin 300} {junk buf data : Mem} {fd count ret : Int}

/-- Every descriptor is -1 or stands inside its file, and that is no longer than
the blocks of an i-node. -/
def PointersFit (s : Sfs) : Prop :=
  ∀ f, s.openFDTCache f = -1 ∨
    0 ≤ s.openFDTCache f ∧ s.openFDTCache f ≤ (s.iNodes f).size ∧ (s.iNodes f).size ≤ 268 * 1024

theorem PointersFit.of_open (hs : PointersFit s) (hopen : 0 ≤ s.openFDTCache f) :
    s.openFDTCache f ≤ (s.iNodes f).size ∧ (s.iNodes f).size ≤ 268 * 1024 := by
  rcases hs f with h | h
  · omega
  · exact h.2

/-- Only the file that was worked on has to be looked at. -/
theorem PointersFit.of_touches (hs : PointersFit s) (h : Touches f s s')
    (hopen : 0 ≤ s'.openFDTCache f) (hin : s'.openFDTCache f ≤ (s'.iNodes f).size)
    (hmax : (s'.iNodes f).size ≤ 268 * 1024) : PointersFit s' := by
  intro g
  by_cases hg : g = f
  · subst hg
    exact Or.inr ⟨hopen, hin, hmax⟩
  · rw [h.descriptors g hg, h.iNodes g hg]
    exact hs g

theorem PointersFit.move (hs : PointersFit s) {q : Int} (hopen : 0 ≤ s.openFDTCache f) (hq : 0 ≤ q)
    (hin : q ≤ (s.iNodes f).size) : PointersFit (s.setReadWritePointer f q) := by
  have := hs.of_open hopen
  exact hs.of_touches (.setReadWritePointer f s q) (by simpa using hq) (by simpa using hin)
    (by simpa using this.2)

/-! ## Reading -/

/-- What `sfs_fread` finds it has to copy. -/
def bytesToRead (s : Sfs) (f : Fin 300) (count : Int) : Int :=
  if (s.iNodes f).size < wrap32 (s.openFDTCache f + count) then
    wrap32 ((s.iNodes f).size - s.openFDTCache f)
  else count

/-- The sums and products of `sfs_fread` stay in the range of an `int`, its loop
fills the buffer and nothing behind it, its last copy stays inside the buffer
and the file, and the descriptors fit afterwards. -/
structure ReadInRange (s : Sfs) (f : Fin 300) (count : Int) : Prop where
  sum : Int32Range (s.openFDTCache f + count)
  rest : Int32Range ((s.iNodes f).size - s.openFDTCache f)
  product : Int32Range (numBlocksForFile (s.iNodes f).size * 1024)
  position : Int32Range (s.openFDTCache f + s.bytesToRead f count)
  filled : ∀ junk r (i : Nat), numBlocksForFile (s.iNodes f).size * 1024 ≤ (i : Int) →
    (readLoop junk (s.iNodes f) (numBlocksForFile (s.iNodes f).size).toNat 0 r).1.fileDataBuffer i =
      r.fileDataBuffer i
  copied : ∀ junk, ∃ ret bytes s', sfsFread junk (f : Nat) count s = .ok (ret, bytes, s') ∧
    (bytes.length : Int) ≤ (s.iNodes f).size - s.openFDTCache f ∧ PointersFit s'

theorem bytesToRead_eq (hopen : 0 ≤ s.openFDTCache f) (hin : s.openFDTCache f ≤ (s.iNodes f).size)
    (hmax : (s.iNodes f).size ≤ 268 * 1024) (hcount : 0 ≤ count)
    (hint : s.openFDTCache f + count < 2147483648) :
    s.bytesToRead f count = min count ((s.iNodes f).size - s.openFDTCache f) := by
  unfold bytesToRead
  rw [wrap32_of_range ⟨by omega, hint⟩, wrap32_of_range ⟨by omega, by omega⟩]
  split <;> omega

variable (junk) in
theorem readStep_outside (node : INode) (k : Nat) (r : ReadState) {i : Nat}
    (hi : k < i / 1024) : (readStep junk node k r).1.fileDataBuffer i = r.fileDataBuffer i := by
  have hblock : ∀ (b : Int) (r : ReadState),
      (readBlock junk k b r).1.fileDataBuffer i = r.fileDataBuffer i := by
    intro b r
    unfold readBlock
    split
    · rfl
    · exact memcpy_out (by omega)
  have hload : (loadIndirect junk node r).2.fileDataBuffer = r.fileDataBuffer := by
    unfold loadIndirect
    split <;> rfl
  unfold readStep
  split
  · exact hblock _ r
  · dsimp only
    split
    · rw [hblock, hload]
    · rw [hload]

variable (junk) in
/-- `n` turns fill `n` blocks at most. -/
theorem readLoop_outside (node : INode) : ∀ (n k : Nat) (r : ReadState) {i : Nat},
    k + n ≤ i / 1024 → (readLoop junk node n k r).1.fileDataBuffer i = r.fileDataBuffer i := by
  intro n
  induction n with
  | zero => intro k r i _; rfl
  | succ n ih =>
      intro k r i hi
      have hstep := readStep_outside junk node k r (i := i) (by omega)
      rw [readLoop]
      split
      · next r' heq =>
          rw [ih (k + 1) r' (by omega)]
          rw [heq] at hstep
          exact hstep
      · next r' heq =>
          rw [heq] at hstep
          exact hstep

variable (junk) in
/-- A read whose end is an `int` delivers bytes of the file, or none where a
block of it is missing. -/
theorem sfsFread_inRange (hs : PointersFit s) (hopen : 0 ≤ s.openFDTCache f) (hcount : 0 ≤ count)
    (hint : s.openFDTCache f + count < 2147483648) :
    ∃ ret bytes s', sfsFread junk (f : Nat) count s = .ok (ret, bytes, s') ∧
      (bytes.length : Int) ≤ (s.iNodes f).size - s.openFDTCache f ∧ PointersFit s' ∧
      0 ≤ s'.openFDTCache f := by
  obtain ⟨hin, hmax⟩ := hs.of_open hopen
  have hclip : (if (s.iNodes f).size < wrap32 (s.openFDTCache f + count) then
      wrap32 ((s.iNodes f).size - s.openFDTCache f) else count) = _ :=
    bytesToRead_eq hopen hin hmax hcount hint
  have hblocks := numBlocksForFile_eq (show 0 ≤ (s.iNodes f).size by omega)
  have hcap : wrap32 (numBlocksForFile (s.iNodes f).size * 1024) =
      numBlocksForFile (s.iNodes f).size * 1024 := wrap32_of_range ⟨by omega, by omega⟩
  unfold sfsFread
  rw [if_neg (by omega), slot?_natCast]
  dsimp only
  rw [if_neg (by omega), hclip, hcap, if_neg (by omega)]
  obtain ⟨p, hp⟩ := readLoop_disk junk (s.iNodes f) (numBlocksForFile (s.iNodes f).size).toNat 0
    ⟨fun _ => 0, fun _ => 0, none, s.disk⟩
  revert hp
  generalize readLoop junk (s.iNodes f) (numBlocksForFile (s.iNodes f).size).toNat 0
    ⟨fun _ => 0, fun _ => 0, none, s.disk⟩ = x
  obtain ⟨r, done⟩ := x
  intro hp
  dsimp only at hp
  have hre : Rereads f s { s with disk := r.disk } := by
    rw [hp]
    exact .seek f s p
  have hfit : PointersFit { s with disk := r.disk } :=
    hs.of_touches hre.touches hopen hin hmax
  cases done with
  | false => exact ⟨_, _, _, rfl, by rw [List.length_nil]; omega, hfit, hopen⟩
  | true =>
      dsimp only
      rw [if_neg (by omega), wrap32_of_range ⟨by omega, by omega⟩]
      refine ⟨_, _, _, rfl, by rw [Mem.length_slice]; omega, hfit.move hopen (by omega) ?_, ?_⟩
      · show s.openFDTCache f + _ ≤ (s.iNodes f).size
        omega
      · rw [openFDTCache_setReadWritePointer, if_pos rfl]
        omega

/-- Reads stay in range exactly as long as their ends do. -/
theorem readInRange_iff (hs : PointersFit s) (hopen : 0 ≤ s.openFDTCache f) (hcount : 0 ≤ count) :
    ReadInRange s f count ↔ s.openFDTCache f + count < 2147483648 := by
  obtain ⟨hin, hmax⟩ := hs.of_open hopen
  have hblocks := numBlocksForFile_eq (show 0 ≤ (s.iNodes f).size by omega)
  constructor
  · intro h
    exact h.sum.2
  · intro hint
    have hbytes := bytesToRead_eq hopen hin hmax hcount hint
    exact
      { sum := ⟨by omega, hint⟩
        rest := ⟨by omega, by omega⟩
        product := ⟨by omega, by omega⟩
        position := ⟨by omega, by omega⟩
        filled := fun junk r i hi => readLoop_outside junk _ _ _ _ (by omega)
        copied := by
          intro junk
          obtain ⟨ret, bytes, s', hread, hlen, hfit, -⟩ :=
            sfsFread_inRange junk hs hopen hcount hint
          exact ⟨ret, bytes, s', hread, hlen, hfit⟩ }

/-! ## Writing -/

/-- The sums and products of `sfs_fwrite` stay in the range of an `int` if it
gets to them, those of the read it makes do as well, every copy stays in the
buffer, and the descriptors fit afterwards. -/
structure WriteInRange (s : Sfs) (f : Fin 300) (buf : Mem) (count : Int) : Prop where
  sum : strnlen buf 2048001 0 ≤ 2048000 → Int32Range (s.openFDTCache f + count)
  product : strnlen buf 2048001 0 ≤ 2048000 →
    Int32Range (numBlocksForFile (s.newFileSize f count) * 1024)
  reread : ReadInRange (s.setReadWritePointer f 0) f (s.iNodes f).size
  copied : ∀ junk, ∃ ret s', sfsFwrite junk (f : Nat) buf count s = .ok (ret, s') ∧ PointersFit s'

theorem sfsFseek_fits {loc : Int} (hs : PointersFit s)
    (h : sfsFseek (f : Nat) loc s = .ok (ret, s')) : PointersFit s' := by
  unfold sfsFseek at h
  split at h
  · cases h
    exact hs
  · rw [slot?_natCast] at h
    dsimp only at h
    split at h
    · cases h
      exact hs
    · split at h
      · cases h
        exact hs
      · cases h
        exact hs.move (by omega) (by omega) (by omega)

/-- Loading the old data leaves the descriptor inside the file. -/
theorem loadFileData_fits_pointers {capacity : Int} (hs : PointersFit s)
    (hopen : 0 ≤ s.openFDTCache f)
    (h : loadFileData junk f buf count capacity s = .ok (data, s')) :
    PointersFit s' ∧ 0 ≤ s'.openFDTCache f := by
  obtain ⟨hin, hmax⟩ := hs.of_open hopen
  refine ⟨?_, (loadFileData_sameOpen h f).mpr hopen⟩
  unfold loadFileData at h
  rw [sfsFseek_eq (Int.le_refl 0) (by omega) hopen] at h
  obtain ⟨⟨r₁, s₁⟩, h₁, h⟩ := ok_bind h
  obtain ⟨-, rfl⟩ := Prod.mk.inj (Except.ok.inj h₁)
  obtain ⟨⟨r₂, bytes, s₂⟩, h₂, h⟩ := ok_bind h
  have hfit : PointersFit s₂ := by
    obtain ⟨ret, bytes', s', hread, -, hfit, -⟩ := sfsFread_inRange junk (f := f)
      (hs.move hopen (Int.le_refl 0) (by omega)) (by simp) (show 0 ≤ (s.iNodes f).size by omega)
      (by rw [openFDTCache_setReadWritePointer, if_pos rfl]; omega)
    have heq := hread.symm.trans h₂
    injection heq with heq
    injection heq with _ heq
    injection heq with _ heq
    rwa [← heq]
  dsimp only at h
  split at h
  · cases h
  · obtain ⟨⟨r₃, s₃⟩, h₃, h⟩ := ok_bind h
    dsimp only at h
    split at h
    · cases h
    · cases h
      exact sfsFseek_fits hfit h₃

/-- The indirect block is allocated first, so with a block for the data there
was one for it. -/
theorem createIndirect_indirect {l l' : WriteLocals} {b : Int}
    (h : createIndirect f l s = (b, l', s')) (hb : 0 ≤ b) : 0 ≤ l'.iNodeOfFile.indirectPointer := by
  unfold createIndirect at h
  dsimp only at h
  cases hfind : Fin.find? s.freeCell with
  | some i =>
      rw [allocateBlock_some hfind] at h
      cases h
      exact Int.natCast_nonneg _
  | none =>
      rw [allocateBlock_none hfind] at h
      have hfind' : Fin.find? (s.setINode f
          { s.iNodes f with indirectPointer := -1 }).freeCell = none := hfind
      dsimp only at h
      rw [allocateBlock_none hfind'] at h
      cases h
      omega

theorem loadIndirectForWrite_iNode (l : WriteLocals) (s : Sfs) :
    (loadIndirectForWrite junk l s).2.1.iNodeOfFile = l.iNodeOfFile := by
  unfold loadIndirectForWrite
  split <;> rfl

/-- A turn that gets a block is for one of the first 268, and from the
thirteenth on it leaves the file with an indirect block. -/
theorem chooseBlock_within {k : Nat} {l l' : WriteLocals} {b : Int}
    (h : chooseBlock junk f k l s = (some b, l', s')) (hb : 0 ≤ b)
    (hind : 12 < k → 0 ≤ l.iNodeOfFile.indirectPointer) :
    k < 268 ∧ (12 ≤ k → 0 ≤ l'.iNodeOfFile.indirectPointer) := by
  unfold chooseBlock at h
  by_cases hk : k < 12
  · exact ⟨by omega, fun h => by omega⟩
  · rw [dif_neg hk] at h
    split at h
    · next hnone =>
        have hk12 : k = 12 := by
          by_contra hne
          exact absurd (hind (by omega)) (by omega)
        generalize hx : createIndirect f l s = x at h
        obtain ⟨b₁, l₁, s₁⟩ := x
        cases h
        exact ⟨by omega, fun _ => createIndirect_indirect hx hb⟩
    · next hsome =>
        have hload : (loadIndirectForWrite junk l s).2.1.iNodeOfFile = l.iNodeOfFile :=
          loadIndirectForWrite_iNode l s
        revert hload h
        generalize loadIndirectForWrite junk l s = x
        obtain ⟨indirectBlock, l₁, s₁⟩ := x
        intro h hload
        dsimp only at h hload
        split at h
        · refine ⟨by omega, ?_⟩
          intro _
          split at h
          · cases h
            rw [hload]
            omega
          · cases h
            rw [hload]
            omega
        · cases h

/-- A loop that goes through has been over 268 blocks at most. -/
theorem writeLoop_within {capacity : Int} : ∀ {n k : Nat} {l : WriteLocals} {s : Sfs},
    writeLoop junk f data capacity n k l s = .ok (true, s') →
    (12 < k → 0 ≤ l.iNodeOfFile.indirectPointer) → 0 < n → k + n ≤ 268 := by
  intro n
  induction n with
  | zero => intro k l s _ _ hn; omega
  | succ n ih =>
      intro k l s h hind _
      rw [writeLoop] at h
      split at h
      · cases h
      · next block l' s₁ heq =>
          split at h
          · cases h
          · next hrange =>
              obtain ⟨hk, hind'⟩ := chooseBlock_within heq (by omega) hind
              split at h
              · cases h
              · by_cases hn : 0 < n
                · have := ih h (fun hlt => hind' (by omega)) hn
                  omega
                · omega

variable (junk buf) in
/-- A write whose end is not in the last block of the `int` range comes back
with descriptors that fit. -/
theorem sfsFwrite_inRange (hs : PointersFit s) (hopen : 0 ≤ s.openFDTCache f) (hcount : 0 ≤ count)
    (hint : s.openFDTCache f + count ≤ 2147483648 - 1024) :
    ∃ ret s', sfsFwrite junk (f : Nat) buf count s = .ok (ret, s') ∧ PointersFit s' := by
  obtain ⟨hin, hmax⟩ := hs.of_open hopen
  obtain ⟨ret, s', h⟩ := sfsFwrite_ok junk buf count (s := s) (f := f) (by omega) hmax hopen hcount
    (by omega)
  refine ⟨ret, s', h, ?_⟩
  rcases sfsFwrite_steps h with ⟨-, rfl, -⟩ | ⟨g, data, s₀, s₁, done, ha, hload, hloop, hret⟩
  · exact hs
  obtain rfl := ha.eq_of_natCast
  obtain ⟨hfit, hopen₀⟩ := loadFileData_fits_pointers hs hopen hload
  obtain ⟨hin₀, hmax₀⟩ := hfit.of_open hopen₀
  have htouch := writeLoop_touches (f := g) hloop
  have hfit₁ : PointersFit s₁ := by
    refine hfit.of_touches htouch.toTouches ?_ ?_ ?_
    · rwa [htouch.positions]
    · rwa [htouch.positions, htouch.size]
    · rwa [htouch.size]
  rcases hret with ⟨rfl, -, rfl⟩ | ⟨-, -, rfl⟩
  · have hsize := newFileSize_eq (s := s) (f := g) hcount hopen (by omega)
    have hblocks := numBlocksForFile_eq (show 0 ≤ s.newFileSize g count by omega)
    have hwithin : s.newFileSize g count ≤ 268 * 1024 := by
      by_cases hn : 0 < s.blocksToWrite g count
      · have := writeLoop_within hloop (fun h => by omega) hn
        rw [blocksToWrite] at this
        omega
      · rw [blocksToWrite] at hn
        omega
    have hfdt : (s₁.finishWrite g (s.newFileSize g count)).openFDTCache g =
        s.newFileSize g count := by
      simp [finishWrite]
    have hnode : ((s₁.finishWrite g (s.newFileSize g count)).iNodes g).size =
        s.newFileSize g count := by
      rw [iNodes_finishWrite, if_pos rfl]
    exact hfit₁.of_touches (finishWrite_touches s₁ g _) (by omega) (by omega) (by omega)
  · exact hfit₁

/-- Writes stay in range exactly as long as their ends do, with room for the
rest of the last block. -/
theorem writeInRange_iff (hs : PointersFit s) (hopen : 0 ≤ s.openFDTCache f) (hcount : 0 ≤ count) :
    WriteInRange s f buf count ↔
      2048000 < strnlen buf 2048001 0 ∨ s.openFDTCache f + count ≤ 2147483648 - 1024 := by
  obtain ⟨hin, hmax⟩ := hs.of_open hopen
  have hreread : ReadInRange (s.setReadWritePointer f 0) f (s.iNodes f).size := by
    refine (readInRange_iff (hs.move hopen (Int.le_refl 0) (by omega)) (by simp) (by omega)).mpr ?_
    rw [openFDTCache_setReadWritePointer, if_pos rfl]
    omega
  constructor
  · intro h
    by_cases hlong : 2048000 < strnlen buf 2048001 0
    · exact Or.inl hlong
    · have hsum := (h.sum (by omega)).2
      have hproduct := (h.product (by omega)).2
      rw [newFileSize_eq hcount hopen hsum, numBlocksForFile_eq (by omega)] at hproduct
      omega
  · rintro (hlong | hint)
    · refine ⟨fun h => by omega, fun h => by omega, hreread, fun junk => ⟨-1, s, ?_, hs⟩⟩
      unfold sfsFwrite
      rw [if_neg (by omega), slot?_natCast]
      dsimp only
      rw [if_neg (by omega), if_pos hlong]
    · refine ⟨fun _ => ⟨by omega, by omega⟩, fun _ => ?_, hreread, fun junk =>
        sfsFwrite_inRange junk buf hs hopen hcount hint⟩
      rw [newFileSize_eq hcount hopen (by omega), numBlocksForFile_eq (by omega)]
      exact ⟨by omega, by omega⟩

/-- Both calls, from any state whose descriptors fit. -/
theorem transfers_inRange_iff (hs : PointersFit s) (hopen : 0 ≤ s.openFDTCache f)
    (hcount : 0 ≤ count) (buf : Mem) :
    (ReadInRange s f count ↔ s.openFDTCache f + count < 2147483648) ∧
    (WriteInRange s f buf count ↔
      2048000 < strnlen buf 2048001 0 ∨ s.openFDTCache f + count ≤ 2147483648 - 1024) :=
  ⟨readInRange_iff hs hopen hcount, writeInRange_iff hs hopen hcount⟩

theorem zeroed_fits (disk : Disk 1024 2000) : PointersFit (zeroed disk) := fun f =>
  Or.inr ⟨Int.le_refl 0, Int.le_refl 0, by show (0 : Int) ≤ _; decide⟩

theorem twoBlocks_fits : PointersFit twoBlocks :=
  (zeroed_fits _).of_touches
    ((Touches.setINode 0 _ twoBlockNode).trans (.setReadWritePointer 0 _ 1000))
    (show 0 ≤ twoBlocks.openFDTCache 0 by rw [openFDTCache_twoBlocks]; decide)
    (show twoBlocks.openFDTCache 0 ≤ (twoBlocks.iNodes 0).size by
      rw [openFDTCache_twoBlocks, iNodes_twoBlocks]; decide)
    (show (twoBlocks.iNodes 0).size ≤ _ by rw [iNodes_twoBlocks]; decide)

theorem transfers_inRange_two_blocks :
    (ReadInRange twoBlocks 0 100 ↔ twoBlocks.openFDTCache 0 + 100 < 2147483648) ∧
    (WriteInRange twoBlocks 0 (fun _ => 0) 100 ↔
      2048000 < strnlen (fun _ => 0) 2048001 0 ∨
        twoBlocks.openFDTCache 0 + 100 ≤ 2147483648 - 1024) :=
  transfers_inRange_iff twoBlocks_fits (by rw [openFDTCache_twoBlocks]; decide) (by decide) _

variable (junk) in
/-- Where the end of a read wraps around it is not clipped, and the copy runs
out of the buffer. -/
theorem sfsFread_overruns (hs : InRange s f) (hf : Backed s f) (hopen : 0 ≤ s.openFDTCache f)
    (hin : s.openFDTCache f ≤ (s.iNodes f).size) (hcount : count < 2147483648)
    (hint : 2147483648 ≤ s.openFDTCache f + count) :
    sfsFread junk (f : Nat) count s = .error .bufferOverrun := by
  obtain ⟨hsize, hmax, hthere⟩ := hf
  have hblocks := numBlocksForFile_eq hsize
  obtain ⟨r', hloop, -⟩ := readLoop_eq junk (f := f) (k := 0)
    (n := (numBlocksForFile (s.iNodes f).size).toNat) hs
    (r := ⟨fun _ => 0, fun _ => 0, none, s.disk⟩) ⟨⟨s.disk.pos, rfl⟩, fun _ h => by cases h⟩
    fun j _ hj => hthere j (by omega)
  have hcap : wrap32 (numBlocksForFile (s.iNodes f).size * 1024) =
      numBlocksForFile (s.iNodes f).size * 1024 := wrap32_of_range ⟨by omega, by omega⟩
  have hwrap : wrap32 (s.openFDTCache f + count) < 0 := by
    rw [wrap32, Int.bmod_def]
    split <;> omega
  unfold sfsFread
  rw [if_neg (by omega), slot?_natCast]
  dsimp only
  rw [if_neg (by omega), if_neg (by omega), hcap, if_neg (by omega), hloop]
  dsimp only
  rw [if_pos (Or.inr (by omega))]

/-- The rest of a file, asked for with the largest count there is. -/
theorem largest_count_overruns :
    PointersFit twoBlocks ∧ 0 ≤ twoBlocks.openFDTCache 0 ∧ ¬ ReadInRange twoBlocks 0 2147483647 ∧
      sfsFread (fun _ => 0) (0 : Fin 300) 2147483647 twoBlocks = .error .bufferOverrun := by
  have hfdt := openFDTCache_twoBlocks
  have hsize : (twoBlocks.iNodes 0).size = 1030 := by
    rw [iNodes_twoBlocks]
    rfl
  refine ⟨twoBlocks_fits, by omega, fun h => ?_, ?_⟩
  · have := h.sum.2
    omega
  · exact sfsFread_overruns _ twoBlocks_inRange twoBlocks_backed (by omega) (by omega) (by omega)
      (by omega)

end OsConcepts.Sfs
