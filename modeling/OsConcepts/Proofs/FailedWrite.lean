import OsConcepts.Proofs.WriteFrame
import OsConcepts.Proofs.WriteResult

/-!
# What a failed write leaves behind

A write that returns -1 after its checks has been through part of its loop. It
has moved the descriptor to the end of the file, put the new bytes over the old
ones as far as it got, and taken blocks from the free list until none was left.
The file is as before only where all this comes to nothing: the descriptor was
at the end already, no block was there to be taken or none was lacking, and the
stray write, if it came to that, did not hit the file's own data.
-/

namespace OsConcepts.Sfs

open OsConcepts

variable {s s' s₀ : Sfs} {f g : Fin 300} {junk buf data : Mem} {fd count ret fileSize : Int}
  {n m : Nat}

/-! ## The free list -/

/-- Allocation only marks blocks occupied, so the number of free blocks tells
whether it has changed anything. -/
theorem freeList_eq_iff (h : ∀ b, s'.freeBlockListCache b = s.freeBlockListCache b ∨
    s'.freeBlockListCache b = OccupiedBlock) :
    s'.freeBlockListCache = s.freeBlockListCache ↔ s'.freeBelow 1024 = s.freeBelow 1024 := by
  refine ⟨fun heq => freeBelow_congr heq 1024, fun hcount => funext ?_⟩
  intro b
  by_contra hne
  have hzero := (h b).resolve_left hne
  have hb : b.val < 1024 := b.isLt
  have hlt : s'.freeBelow 1024 < s.freeBelow 1024 := by
    rw [Sfs.freeBelow, Sfs.freeBelow, FirstFit.freeBelow, FirstFit.freeBelow]
    refine Finset.card_lt_card (Finset.ssubset_iff_of_subset ?_ |>.mpr ⟨b, ?_, ?_⟩)
    · intro c
      simp only [Finset.mem_filter, Finset.mem_univ, true_and, freeCell, bne_iff_ne]
      rintro ⟨hc, hfree⟩
      refine ⟨hc, fun hc0 => hfree ?_⟩
      rcases h c with heq | heq
      · rw [heq, hc0]
      · exact heq
    · simp only [Finset.mem_filter, Finset.mem_univ, true_and, freeCell, bne_iff_ne]
      exact ⟨hb, fun hb0 => hne (by rw [hzero, hb0])⟩
    · simp only [Finset.mem_filter, Finset.mem_univ, true_and, freeCell, bne_iff_ne]
      exact fun hfree => hfree.2 hzero
  omega

/-- A write that stops leaves the free list as it was when there was nothing to
take or nothing to ask for. -/
theorem Stops.freeList_iff {s₁ : Sfs} (hm : m < n) (hP : Progress f 0 m data s s₁)
    (hstop : Stops f m s₁ s') :
    s'.freeBlockListCache = s.freeBlockListCache ↔
      s.freeBelow 1024 = 0 ∨ s.missing f 0 (min n 268) = 0 := by
  have hcount := hP.count 1024
  have henough := hP.enough
  have hle : m ≤ 268 := by
    by_cases hm0 : 0 < m
    · have := hP.within hm0
      omega
    · omega
  cases hstop with
  | past p hk =>
      have hmin : min n 268 = m := by omega
      rw [freeBlockListCache_seek, freeList_eq_iff hP.ext.shrinks, hmin]
      omega
  | full hk hfree hone hnone howned hext =>
      have hshort := (Stops.full hk hfree hone hnone howned hext ‹_› ‹_›).short hP hk
      have hmono := missing_mono (s := s) (f := f) (k := 0) (m := m + 1) (n := min n 268) (by omega)
      rw [freeList_eq_iff (hP.ext.trans hext).shrinks]
      omega
  | stray hk hind hfree =>
      have hshort := (Stops.stray hk hind hfree).short hP (by omega)
      have hmono := missing_mono (s := s) (f := f) (k := 0) (m := m + 1) (n := min n 268) (by omega)
      have hcache : s₁.strayWrite.freeBlockListCache = s₁.freeBlockListCache := by
        unfold strayWrite
        rw [freeBlockListCache_writeBlocks]
      rw [hcache, freeList_eq_iff hP.ext.shrinks]
      omega

/-! ## The bytes -/

theorem Progress.blockPointer_keeps (hP : Progress f 0 m data s s') {k : Nat}
    (hne : s.blockPointer f k ≠ -1) : s'.blockPointer f k = s.blockPointer f k := by
  have hk : k < 268 := by
    by_contra hge
    exact hne (blockPointer_past (by omega))
  rw [blockPointer_eq hk] at hne ⊢
  rw [blockPointer_eq hk]
  exact hP.ext.keeps _ hne

/-- The blocks a loop has been through hold the buffer, the others what they
held; where the buffer holds the old byte nothing has changed. -/
theorem Progress.byteAt_keeps (hP : Progress f 0 m data s s') {k : Nat}
    (hne : s.blockPointer f (k / 1024) ≠ -1) (hdata : data k = s.byteAt f k) :
    s'.byteAt f k = s.byteAt f k := by
  by_cases hk : k / 1024 < m
  · rw [hP.byteAt hk, hdata]
  · have hbp := hP.blockPointer_keeps hne
    have hne' : s'.blockPointer f (k / 1024) ≠ -1 := by rwa [hbp]
    obtain ⟨hlt, hnat⟩ := hP.owned.blockPointer_lt hne'
    have hns := hP.owned.toNoSharing
    have hblock := hP.rest (s'.blockPointer f (k / 1024)).toNat (by omega) (by omega)
      (fun j _ hj hjk => by
        have heq : s'.blockPointer f j = s'.blockPointer f (k / 1024) := by rw [hjk, ← hnat]
        have := (hns.eq_of_blockPointer_eq heq (by rwa [heq])).2
        omega)
      (fun hind => hns.blockPointer_ne_indirect hne' (by rw [hind, ← hnat]))
    rw [Sfs.byteAt, Sfs.byteAt, hblock, hbp]

/-- A loop that has stopped without a stray write has moved no block and kept
every byte. -/
theorem Stops.byteAt_keeps {s₁ : Sfs} (hs : Owned s₁) (hstop : Stops f m s₁ s')
    (hsteady : ¬ (m = 12 ∧ s₁.pointer f .indirect = -1 ∧ s₁.freeBelow 1024 = 0)) :
    Owned s' ∧ (∀ j, s'.blockPointer f j = s₁.blockPointer f j) ∧
      ∀ k, s₁.blockPointer f (k / 1024) ≠ -1 → s'.byteAt f k = s₁.byteAt f k := by
  cases hstop with
  | past p hk =>
      have hre := Rereads.seek f s₁ p
      exact ⟨hre.sameBlocks.owned hs, hre.sameBlocks.blockPointer f, fun k _ => hre.byteAt f k⟩
  | full hk hfree hone hnone howned hext hbp hframe =>
      refine ⟨howned, hbp, ?_⟩
      intro k hne
      have hne' : s'.blockPointer f (k / 1024) ≠ -1 := by rwa [hbp]
      obtain ⟨hlt, hnat⟩ := howned.blockPointer_lt hne'
      rw [byteAt, byteAt, hbp]
      rw [hbp] at hlt hnat hne'
      rw [hframe _ (by omega) (by omega) fun hind => ?_]
      refine howned.toNoSharing.blockPointer_ne_indirect (g := f) (k := k / 1024)
        (by rwa [hbp]) ?_
      rw [hbp, hnat, hind]
  | stray hk hind hfree => exact absurd ⟨hk, hind, hfree⟩ hsteady

/-! ## The buffer -/

/-- What is known of the buffer and the descriptor once the file is loaded,
whatever the capacity. -/
theorem loadFileData_inv {capacity : Int} (hs : NoSharing s) (hf : Backed s f)
    (hopen : 0 ≤ s.openFDTCache f)
    (h : loadFileData junk f buf count capacity s = .ok (data, s₀)) :
    s₀.openFDTCache f = (s.iNodes f).size ∧ (s.iNodes f).size ≤ max capacity 0 ∧
      (0 < count → s.openFDTCache f + count ≤ capacity) ∧
      ∀ k : Nat, (k : Int) < (s.iNodes f).size → (k : Int) < s.openFDTCache f →
        data k = s.byteAt f k := by
  obtain ⟨s₁, s₂, hseek, hs₁, hread, p, hs₂⟩ := read_from_start junk (hs.range f) hf hopen
  have hsize := hf.1
  have hnode₁ : s₁.iNodes f = s.iNodes f := by rw [hs₁]; simp
  have hfdt₂ : s₂.openFDTCache f = (s.iNodes f).size := by rw [hs₂]; simp
  have hnode₂ : s₂.iNodes f = s.iNodes f := by rw [hs₂]; simp
  have hseek₂ : sfsFseek (f : Nat) (s₂.openFDTCache f) s₂ = .ok (0, s₂) := by
    have hback : s₂.setReadWritePointer f (s₂.openFDTCache f) = s₂ :=
      setReadWritePointer_eq_self s₂ f
    rw [sfsFseek_eq (by omega) (by rw [hfdt₂, hnode₂]) (by omega), hback]
  unfold loadFileData at h
  simp only [hseek, hnode₁, hread, bind, Except.bind] at h
  split at h
  · cases h
  · next hlen =>
      rw [length_contents] at hlen
      simp only [hseek₂] at h
      split at h
      · cases h
      · next hfit =>
          obtain ⟨hdata, rfl⟩ := Prod.mk.inj (Except.ok.inj h)
          refine ⟨hfdt₂, by omega, fun hcount => by omega, ?_⟩
          intro k hk hk'
          have hin : k < (s.contents f).length := by rw [length_contents]; omega
          rw [← hdata, memcpy_out (by omega), memcpy_in (Nat.zero_le k) (by omega), Nat.sub_zero,
            Mem.ofList_apply hin]
          simp [contents]

/-! ## Past the range of an `int` -/

/-- A buffer without room for a block is overrun by the first one, unless the
loop stops there. -/
theorem writeLoop_without_room {capacity : Int} {l : WriteLocals} (hs : Owned s)
    (ht : Tracks f 0 l s) (hcap : capacity < 1024) (hn : 0 < n) :
    (∃ r, writeLoop junk f buf capacity n 0 l s = .ok r) ↔ s.freeBelow 1024 < s.need f 0 := by
  obtain ⟨m, rfl⟩ : ∃ m, n = m + 1 := ⟨n - 1, by omega⟩
  rw [writeLoop]
  by_cases hgo : s.need f 0 ≤ s.freeBelow 1024
  · obtain ⟨a, l', s₁, hchoose, -⟩ := chooseBlock_done junk hs ht (by omega) hgo
    have halt := a.isLt
    rw [hchoose]
    dsimp only
    rw [if_neg (by omega), if_pos (by omega)]
    refine iff_of_false ?_ (by omega)
    rintro ⟨r, hr⟩
    cases hr
  · obtain ⟨o, l', s₁, hchoose, ho, -⟩ := chooseBlock_stop junk hs ht (Or.inr (by omega))
    refine iff_of_true ?_ (by omega)
    rw [hchoose]
    rcases ho with rfl | rfl
    · exact ⟨_, rfl⟩
    · dsimp only
      rw [if_pos (by omega)]
      exact ⟨_, rfl⟩

theorem wrap32_mul_le (x : Int) : wrap32 (x * 1024) ≤ 2147483648 - 1024 := by
  rw [wrap32, Int.bmod_def]
  split <;> omega

theorem freeBelow_lt_need_zero :
    s.freeBelow 1024 < s.need f 0 ↔ s.freeBelow 1024 = 0 ∧ s.blockPointer f 0 = -1 := by
  unfold need
  by_cases hbp : s.blockPointer f 0 = -1
  · rw [if_pos hbp, if_neg (by omega)]
    omega
  · rw [if_neg hbp, if_neg (by omega)]
    omega

/-- Nothing written to an empty file from a position in the last block of the
`int` range: the size comes out as the position, and its blocks as 2^31 bytes,
which is no size for a buffer. -/
theorem sfsFwrite_past (hs : Owned s) (ha : Accepts s fd buf 0 f)
    (hsize : (s.iNodes f).size = 0) (hfar : 2147483648 - 1024 < s.openFDTCache f)
    (hint : Int32Range (s.openFDTCache f)) :
    (∃ r, sfsFwrite junk fd buf 0 s = .ok r) ↔
      s.freeBelow 1024 = 0 ∧ s.blockPointer f 0 = -1 := by
  have hnew : wrap32 (s.openFDTCache f + 0) = s.openFDTCache f := by
    rw [Int.add_zero]
    exact wrap32_of_range hint
  have hblocks := numBlocksForFile_eq ha.isOpen
  have hmax := hint.2
  have hcap : wrap32 (numBlocksForFile (s.openFDTCache f) * 1024) < 0 := by
    rw [show numBlocksForFile (s.openFDTCache f) = 2097152 by omega]
    decide
  obtain ⟨⟨data, s₀⟩, hload⟩ := loadFileData_ok junk buf 0
    (wrap32 (numBlocksForFile (s.openFDTCache f) * 1024)) (s := s) (f := f) (by omega) (by omega)
    ha.isOpen (by omega) (by omega)
  have hre := loadFileData_rereads hload
  have hsame := hre.sameBlocks
  have ht := Tracks.start s₀ f
  rw [hre.iNodes] at ht
  have hloop : (∃ r, writeLoop junk f data (wrap32 (numBlocksForFile (s.openFDTCache f) * 1024))
      (numBlocksForFile (s.openFDTCache f)).toNat 0 ⟨s.iNodes f, none⟩ s₀ = .ok r) ↔ _ :=
    writeLoop_without_room (hsame.owned hs) ht (by omega) (by omega)
  rw [freeBelow_lt_need_zero, hsame.freeBelow, hsame.blockPointer] at hloop
  rw [← hloop]
  have hopen := ha.isOpen
  unfold sfsFwrite
  rw [if_neg (by omega), ha.slot]
  dsimp only
  rw [if_neg (by omega), if_neg (by have := ha.short; omega), hnew, if_pos (by omega)]
  simp only [hload, bind, Except.bind]
  cases writeLoop junk f data (wrap32 (numBlocksForFile (s.openFDTCache f) * 1024))
    (numBlocksForFile (s.openFDTCache f)).toNat 0 ⟨s.iNodes f, none⟩ s₀ with
  | error e => exact iff_of_false (fun ⟨r, hr⟩ => by cases hr) fun ⟨r, hr⟩ => by cases hr
  | ok r =>
      obtain ⟨done, s₂⟩ := r
      cases done with
      | true => exact iff_of_true ⟨_, rfl⟩ ⟨_, rfl⟩
      | false => exact iff_of_true ⟨_, rfl⟩ ⟨_, rfl⟩

/-! ## A call -/

/-- The accepted write will not find all blocks it needs. -/
def Fails (s : Sfs) (f : Fin 300) (count : Int) : Prop :=
  268 < s.blocksToWrite f count ∨
    s.freeBelow 1024 < s.missing f 0 (min (s.blocksToWrite f count) 268)

/-- The write stays in its buffer. Past the range of an `int` it comes back only
where there is nothing to copy and the first block cannot be had. -/
def ComesBack (s : Sfs) (f : Fin 300) (count : Int) : Prop :=
  s.openFDTCache f + count ≤ 2147483648 - 1024 ∨
    count = 0 ∧ (s.iNodes f).size = 0 ∧ s.freeBelow 1024 = 0 ∧ s.blockPointer f 0 = -1

/-- The block behind the last direct one is the file's own and holds a byte of
the file that is not all ones. -/
def HitsSelf (s : Sfs) (f : Fin 300) : Prop :=
  ∃ (b : Fin 1024) (k : Nat), LastDirect s f b ∧ (k : Int) < (s.iNodes f).size ∧
    s.blockPointer f (k / 1024) = ((b.val + 1 : Nat) : Int) ∧ s.byteAt f k ≠ 255

/-- Nothing comes of the failing write: there is no block to take or none is
asked for, the descriptor is at the end of the file, and the stray write misses
the file's own data. -/
structure Harmless (s : Sfs) (f : Fin 300) (count : Int) : Prop where
  takesNothing : s.freeBelow 1024 = 0 ∨
    s.missing f 0 (min (s.blocksToWrite f count) 268) = 0
  atEnd : s.openFDTCache f = (s.iNodes f).size
  misses : RunsDry s f count → ¬ HitsSelf s f

/-- The size, the bytes and the position of a file are as before. -/
structure Undisturbed (f : Fin 300) (s s' : Sfs) : Prop where
  size : (s'.iNodes f).size = (s.iNodes f).size
  bytes : ∀ junk, readAll junk f s' = readAll junk f s
  position : s'.openFDTCache f = s.openFDTCache f

theorem Stops.descriptors {s₁ : Sfs} (hstop : Stops f m s₁ s') :
    s'.openFDTCache = s₁.openFDTCache ∧ (s'.iNodes f).size = (s₁.iNodes f).size := by
  cases hstop with
  | past p hk => exact ⟨openFDTCache_seek s₁ p, by rw [iNodes_seek]⟩
  | full hk hfree hone hnone howned hext => exact ⟨hext.descriptors, hext.size⟩
  | stray hk hind hfree =>
      exact ⟨openFDTCache_writeBlocks s₁ _ _ _, by rw [iNodes_strayWrite]⟩

/-- A file whose bytes are all as before, and only such a file, reads as before. -/
theorem readAll_eq_iff (hs : InRange s f) (hs' : InRange s' f) (hb : Backed s f)
    (hb' : Backed s' f) (hopen : 0 ≤ s.openFDTCache f) (hopen' : 0 ≤ s'.openFDTCache f)
    (hsize : (s'.iNodes f).size = (s.iNodes f).size) :
    (∀ junk, readAll junk f s' = readAll junk f s) ↔
      ∀ k : Nat, (k : Int) < (s.iNodes f).size → s'.byteAt f k = s.byteAt f k := by
  constructor
  · intro h k hk
    have heq := h fun _ => 0
    rw [readAll_eq hs' hb' hopen', readAll_eq hs hb hopen] at heq
    have hlist := congrArg (fun l => l[k]?) (Except.ok.inj heq)
    rw [getElem?_contents (by omega), getElem?_contents hk] at hlist
    exact Option.some.inj hlist
  · intro h junk
    rw [readAll_eq hs' hb' hopen', readAll_eq hs hb hopen, contents, contents, hsize]
    refine congrArg Except.ok (List.map_congr_left fun k hk => ?_)
    rw [List.mem_range] at hk
    exact h k (by omega)

/-- Where the loop of a write at the end of a file has been, the buffer holds the
old bytes: it keeps every byte of the file. -/
theorem Progress.keeps {s₁ : Sfs} (hP : Progress f 0 m data s₀ s₁) (hre : Rereads f s s₀)
    (hb : Backed s f)
    (hdata : ∀ k : Nat, (k : Int) < (s.iNodes f).size → data k = s.byteAt f k)
    {k : Nat} (hk : (k : Int) < (s.iNodes f).size) :
    s₁.blockPointer f (k / 1024) ≠ -1 ∧
      s₁.blockPointer f (k / 1024) = s.blockPointer f (k / 1024) ∧
      s₁.byteAt f k = s.byteAt f k := by
  have hblocks := numBlocksForFile_eq hb.1
  have hne := hb.2.2 (k / 1024) (by omega)
  have hsame := hre.sameBlocks.blockPointer f (k / 1024)
  have hne₀ : s₀.blockPointer f (k / 1024) ≠ -1 := by rwa [hsame]
  have hkept := hP.blockPointer_keeps hne₀
  refine ⟨by rwa [hkept], hkept.trans hsame, ?_⟩
  rw [hP.byteAt_keeps hne₀ (by rw [hdata k hk, hre.byteAt]), hre.byteAt]

/-- A state with the loop's pointers has a block for every byte of the file. -/
theorem Progress.backed {s₁ t : Sfs} (hP : Progress f 0 m data s₀ s₁) (hre : Rereads f s s₀)
    (hb : Backed s f) (ht : (t.iNodes f).size = (s.iNodes f).size)
    (hbp : ∀ k, t.blockPointer f k = s₁.blockPointer f k) : Backed t f := by
  refine ⟨by rw [ht]; exact hb.1, by rw [ht]; exact hb.2.1, ?_⟩
  intro k hk
  rw [ht] at hk
  have hne₀ : s₀.blockPointer f k ≠ -1 := by
    rw [hre.sameBlocks.blockPointer]
    exact hb.2.2 k hk
  rw [hbp, hP.blockPointer_keeps hne₀]
  exact hne₀

/-- The bytes are the old ones after the stray write if and only if it misses
them or puts ones where ones were. -/
theorem strayWrite_keeps_iff {s₁ : Sfs} {b : Fin 1024} (hns : NoSharing s₁)
    (hlast : LastDirect s f b) (hpos : s₁.disk.pos = (b.val + 1) * 1024)
    (hptr : s₁.strayWrite.pointer f = s₁.pointer f)
    (hkeeps : ∀ {k : Nat}, (k : Int) < (s.iNodes f).size → s₁.blockPointer f (k / 1024) ≠ -1 ∧
      s₁.blockPointer f (k / 1024) = s.blockPointer f (k / 1024) ∧
      s₁.byteAt f k = s.byteAt f k) :
    (∀ k : Nat, (k : Int) < (s.iNodes f).size → s₁.strayWrite.byteAt f k = s.byteAt f k) ↔
      ¬ HitsSelf s f := by
  have hbyte : ∀ k : Nat, (k : Int) < (s.iNodes f).size →
      s₁.strayWrite.byteAt f k =
        if s.blockPointer f (k / 1024) = ((b.val + 1 : Nat) : Int) then 255
        else s.byteAt f k := by
    intro k hk
    obtain ⟨hne, hsame, hold⟩ := hkeeps hk
    rw [byteAt_strayWrite hns hpos hptr hne, hsame, hold]
  constructor
  · rintro hall ⟨c, k, hc, hk, hhit, hones⟩
    rw [hc.unique hlast] at hhit
    have h255 := hbyte k hk
    rw [if_pos hhit, hall k hk] at h255
    exact hones h255
  · intro hno k hk
    rw [hbyte k hk]
    split
    · next hhit =>
        by_contra hones
        exact hno ⟨b, k, hlast, hk, hhit, fun h => hones h.symm⟩
    · rfl

/-- What a write that failed after its checks has changed. -/
theorem failed_write (hs : Owned s) (hb : Backed s f) (ha : Accepts s fd buf count f)
    (h : sfsFwrite junk fd buf count s = .ok (-1, s')) :
    Fails s f count ∧ s'.openFDTCache f = (s.iNodes f).size ∧
      (s'.iNodes f).size = (s.iNodes f).size ∧
      (s'.freeBlockListCache = s.freeBlockListCache ↔ s.freeBelow 1024 = 0 ∨
        s.missing f 0 (min (s.blocksToWrite f count) 268) = 0) ∧
      (s.openFDTCache f = (s.iNodes f).size →
        ((∀ junk, readAll junk f s' = readAll junk f s) ↔
          (RunsDry s f count → ¬ HitsSelf s f))) := by
  have hcount := ha.count_nonneg
  have hsize0 := hb.1
  rcases sfsFwrite_cases hs h with ⟨-, -, hrefused⟩ | ⟨g, data, s₀, ha', hload, hout⟩
  · exact absurd ha (hrefused f)
  have hg : g = f := ha.unique ha'
  subst hg
  have hre := loadFileData_rereads hload
  have hsame := hre.sameBlocks
  obtain ⟨hpos₀, -, -, hdata⟩ := loadFileData_inv hs.toNoSharing hb ha.isOpen hload
  generalize hret : (-1 : Int) = ret at hout
  cases hout with
  | done => omega
  | @stopped m s₁ _ hm hP hstop =>
      obtain ⟨hfdt, hsize⟩ := hstop.descriptors
      have hsize' : (s'.iNodes g).size = (s.iNodes g).size := by
        rw [hsize, hP.ext.size, hre.iNodes]
      have hfdt' : s'.openFDTCache g = (s.iNodes g).size := by
        rw [hfdt, hP.ext.descriptors, hpos₀]
      refine ⟨?_, hfdt', hsize', ?_, fun hend => ?_⟩
      · unfold Fails
        rw [← hsame.missing, ← hsame.freeBelow]
        by_cases hm268 : m < 268
        · have hshort := hstop.short hP hm268
          have hmono := missing_mono (s := s₀) (f := g) (k := 0) (m := m + 1)
            (n := min (s.blocksToWrite g count) 268) (by omega)
          exact Or.inr (by omega)
        · exact Or.inl (by omega)
      · rw [← hsame.missing, ← hsame.freeBelow, ← hsame.freeList]
        exact hstop.freeList_iff hm hP
      · have hkeeps := fun k => hP.keeps (k := k) hre hb fun k hk => hdata k hk (by omega)
        by_cases hsteady : m = 12 ∧ s₁.pointer g .indirect = -1 ∧ s₁.freeBelow 1024 = 0
        · -- The stray write is the one way to lose bytes now.
          obtain ⟨rfl, hind, hzero⟩ := hsteady
          obtain rfl := hstop.eq_strayWrite hind hzero
          have hdry₀ : s₀.freeBelow 1024 = s₀.missing g 0 12 := by
            have := hP.count 1024
            have := hP.enough
            omega
          have hind₀ : s₀.pointer g .indirect = -1 := by rw [← hP.indirect (by omega), hind]
          obtain ⟨b, hb₀, hlt, hpos⟩ := hP.lastDirect hdry₀
          have hlast : LastDirect s g b := hsame.lastDirect.mp hb₀
          have hdry : RunsDry s g count := by
            rw [hsame.freeBelow, hsame.missing] at hdry₀
            rw [hsame.pointer] at hind₀
            exact ⟨hm, hind₀, hdry₀⟩
          have hns := hP.owned.toNoSharing
          have hptr : s₁.strayWrite.pointer g = s₁.pointer g :=
            pointer_strayWrite_of_no_entries hns hpos hlt fun h => by omega
          have hback' := hP.backed hre hb hsize' (blockPointer_congr hptr)
          have hrange' := (strayWrite_noSharing hns hpos).range g
          rw [readAll_eq_iff (hs.range g) hrange' hb hback' ha.isOpen (by omega) hsize',
            strayWrite_keeps_iff hns hlast hpos hptr (hkeeps _)]
          exact ⟨fun hno _ => hno, fun hno => hno hdry⟩
        · obtain ⟨howned, hbp, hbyte⟩ := hstop.byteAt_keeps hP.owned hsteady
          have hback' := hP.backed hre hb hsize' hbp
          refine iff_of_true ((readAll_eq_iff (hs.range g) (howned.range g) hb hback' ha.isOpen
            (by omega) hsize').mpr fun k hk => ?_) fun hdry => ?_
          · obtain ⟨hne, -, hold⟩ := hkeeps k hk
            rw [hbyte k hne, hold]
          · refine absurd ?_ (hstop.not_dry hP hsteady)
            rw [hsame.pointer, hsame.freeBelow, hsame.missing]
            exact ⟨hdry.indirect, hdry.dry⟩

theorem Fails.ret_eq (hs : Owned s) (ha : Accepts s fd buf count f)
    (h : sfsFwrite junk fd buf count s = .ok (ret, s')) (hfails : Fails s f count) : ret = -1 := by
  rcases sfsFwrite_cases hs h with ⟨hret, -, -⟩ | ⟨g, data, s₀, ha', hload, hout⟩
  · exact hret
  have hg : g = f := ha.unique ha'
  subst hg
  have hsame := (loadFileData_rereads hload).sameBlocks
  cases hout with
  | stopped => rfl
  | done hP =>
      have henough := hP.enough
      rw [hsame.missing, hsame.freeBelow] at henough
      have hwithin : s.blocksToWrite g count ≤ 268 := by
        by_cases hn : 0 < s.blocksToWrite g count
        · have := hP.within hn
          omega
        · omega
      rcases hfails with hlong | hshort
      · omega
      · rw [min_eq_left hwithin] at hshort
        omega

/-- Only within its buffer does a write come back. -/
theorem comesBack_of_ok (hs : Owned s) (hb : Backed s f) (ha : Accepts s fd buf count f)
    (hint : Int32Range (s.openFDTCache f)) (hcount : Int32Range count)
    (h : sfsFwrite junk fd buf count s = .ok (ret, s')) : ComesBack s f count := by
  rcases sfsFwrite_cases hs h with ⟨-, -, hrefused⟩ | ⟨g, data, s₀, ha', hload, -⟩
  · exact absurd ha (hrefused f)
  have hg : g = f := ha.unique ha'
  subst hg
  obtain ⟨-, hsize, hfit, -⟩ := loadFileData_inv hs.toNoSharing hb ha.isOpen hload
  have hcap := wrap32_mul_le (numBlocksForFile (s.newFileSize g count))
  by_cases hzero : count = 0
  · subst hzero
    by_cases hfar : s.openFDTCache g ≤ 2147483648 - 1024
    · exact Or.inl (by omega)
    · have hnew : s.newFileSize g 0 = s.openFDTCache g := by
        have hmax := hb.2.1
        rw [newFileSize_eq (Int.le_refl 0) ha.isOpen (by have := hint.2; omega)]
        omega
      have hblocks := numBlocksForFile_eq ha.isOpen
      have hmax := hint.2
      have hneg : wrap32 (numBlocksForFile (s.newFileSize g 0) * 1024) < 0 := by
        rw [hnew, show numBlocksForFile (s.openFDTCache g) = 2097152 by omega]
        decide
      have hempty : (s.iNodes g).size = 0 := by
        have := hb.1
        omega
      have hstop := (sfsFwrite_past hs ha hempty (by omega) hint).mp ⟨_, h⟩
      exact Or.inr ⟨rfl, hempty, hstop⟩
  · have := ha.count_nonneg
    exact Or.inl (by have := hfit (by omega); omega)

variable (junk) in
/-- A write that is bound to fail and stays in its buffer returns -1. -/
theorem sfsFwrite_fails (hs : Owned s) (hb : Backed s f) (ha : Accepts s fd buf count f)
    (hint : Int32Range (s.openFDTCache f)) (hcomes : ComesBack s f count)
    (hfails : Fails s f count) :
    ∃ s', sfsFwrite junk fd buf count s = .ok (-1, s') := by
  have hok : ∃ r, sfsFwrite junk fd buf count s = .ok r := by
    by_cases hnear : s.openFDTCache f + count ≤ 2147483648 - 1024
    · obtain ⟨ret, s', h⟩ := sfsFwrite_ok junk buf count hb.1 hb.2.1 ha.isOpen
        ha.count_nonneg (by omega)
      rw [slot?_eq_some.mp ha.slot]
      exact ⟨_, h⟩
    · obtain ⟨rfl, hempty, hstop⟩ := hcomes.resolve_left hnear
      exact (sfsFwrite_past hs ha hempty (by omega) hint).mpr hstop
  obtain ⟨⟨ret, s'⟩, h⟩ := hok
  obtain rfl := hfails.ret_eq hs ha h
  exact ⟨s', h⟩

/-- A call that returns -1 leaves the file and the free list as they were. -/
def FailsCleanly (junk : Mem) (fd : Int) (buf : Mem) (count : Int) (s : Sfs) : Prop :=
  ∀ s', sfsFwrite junk fd buf count s = .ok (-1, s') →
    s'.freeBlockListCache = s.freeBlockListCache ∧
      ∀ f, slot? fd = some f → Undisturbed f s s'

/-- A failing write leaves everything as it was exactly when there was nothing
it could have done. Of the file it goes to no more is asked than that it has its
blocks. -/
theorem sfsFwrite_failsCleanly_iff (hs : Owned s)
    (hb : ∀ f, Accepts s fd buf count f → Backed s f)
    (hint : ∀ f, Int32Range (s.openFDTCache f)) (hcount : Int32Range count) (junk : Mem) :
    FailsCleanly junk fd buf count s ↔
      ∀ f, Accepts s fd buf count f → Fails s f count → ComesBack s f count →
        Harmless s f count := by
  constructor
  · intro hclean f ha hfails hcomes
    obtain ⟨s', h⟩ : ∃ s', sfsFwrite junk fd buf count s = .ok (-1, s') :=
      sfsFwrite_fails junk hs (hb f ha) ha (hint f) hcomes hfails
    obtain ⟨hfree, hsame⟩ := hclean s' h
    have hun := hsame f ha.slot
    obtain ⟨-, hpos, -, htaken, hread⟩ := failed_write hs (hb f ha) ha h
    have hend : s.openFDTCache f = (s.iNodes f).size := hun.position.symm.trans hpos
    exact ⟨htaken.mp hfree, hend, (hread hend).mp hun.bytes⟩
  · intro hharmless s' h
    rcases sfsFwrite_cases hs h with ⟨-, rfl, -⟩ | ⟨f, -, -, ha, -, -⟩
    · exact ⟨rfl, fun f _ => ⟨rfl, fun _ => rfl, rfl⟩⟩
    · obtain ⟨hfails, hpos, hsize, htaken, hread⟩ := failed_write hs (hb f ha) ha h
      have hun := hharmless f ha hfails (comesBack_of_ok hs (hb f ha) ha (hint f) hcount h)
      refine ⟨htaken.mpr hun.takesNothing, ?_⟩
      intro g hg
      obtain rfl : g = f := Option.some.inj (hg.symm.trans ha.slot)
      exact ⟨hsize, (hread hun.atEnd).mpr hun.misses, hpos.trans hun.atEnd.symm⟩

/-- One byte more for `A` at its end on the full disk: the write fails, and its stray
write hits `B`. -/
theorem sfsFwrite_failsCleanly_fullDisk :
    (∃ s', sfsFwrite (fun _ => 0) (0 : Fin 300) (fun _ => 0) 1 fullDisk = .ok (-1, s')) ∧
      FailsCleanly (fun _ => 0) (0 : Fin 300) (fun _ => 0) 1 fullDisk := by
  have hw := fullDisk_wellFormed
  have hb : Backed fullDisk 0 := hw.backed 0 (by show (65 : Byte) ≠ 0; decide)
  have hsize : (fullDisk.iNodes 0).size = 12288 := rfl
  have hrange : ∀ g, Int32Range (fullDisk.openFDTCache g) := by
    intro g
    show Int32Range (if g = 0 then 12288 else -1)
    split <;> exact ⟨by decide, by decide⟩
  refine ⟨fullDisk_write_fails _, (sfsFwrite_failsCleanly_iff hw.toOwned (fun g hg => ?_) hrange
    ⟨by omega, by omega⟩ _).mpr fun g hg _ _ => ?_⟩
  · rwa [hg.eq_of_natCast]
  · rw [hg.eq_of_natCast]
    refine ⟨Or.inl fullDisk_freeBelow, rfl, fun _ => ?_⟩
    rintro ⟨b, k, hlast, hk, hblock, -⟩
    -- Behind the last block of `A` is none of its own.
    have hdirect : fullDisk.pointer 0 (.direct 11) = 29 := fullDisk_direct 0 11
    have hpointer := fullDisk_blockPointer (k := k / 1024) (by omega)
    rcases hlast with hlast | ⟨hnone, -⟩ <;> omega

/-- One byte more than a file can hold, written to a new file: the write is
refused only after it has taken every block a file can have. -/
theorem failed_write_takes_blocks :
    WellFormed (formatted.createFile 0 (letter 65 (by decide))) ∧
      ¬ FailsCleanly (fun _ => 0) (0 : Fin 300) (fun _ => 0) (268 * 1024 + 1)
        (formatted.createFile 0 (letter 65 (by decide))) := by
  have h := formatted_fresh
  have hw := h.createFile_wellFormed (letter 65 (by decide))
  have hsize := createFile_size formatted 0 (letter 65 (by decide))
  have hfdt := createFile_position formatted 0 (letter 65 (by decide))
  have hl := live_createFile_letter formatted 0 (b := 65) (by decide)
  have ha : Accepts (formatted.createFile 0 (letter 65 (by decide))) ((0 : Fin 300) : Nat)
      (fun _ => 0) (268 * 1024 + 1) 0 :=
    ⟨by omega, slot?_natCast 0, by omega, by rw [strnlen_zeros]; omega⟩
  have hblocks : (formatted.createFile 0 (letter 65 (by decide))).blocksToWrite 0
      (268 * 1024 + 1) = 269 := by
    rw [blocksToWrite_eq (by omega) (by omega) (by omega), blocksAfter, hfdt, hsize]
    decide
  refine ⟨hw, ?_⟩
  intro hclean
  have hrange : Int32Range ((formatted.createFile 0 (letter 65 (by decide))).openFDTCache 0) := by
    rw [hfdt]
    exact ⟨by decide, by decide⟩
  have hb := hw.backed 0 hl
  obtain ⟨s', hwrite⟩ := sfsFwrite_fails (fun _ => 0) hw.toOwned hb ha hrange (Or.inl (by omega))
    (Or.inl (by omega))
  obtain ⟨-, -, -, htaken, -⟩ := failed_write hw.toOwned hb ha hwrite
  have hnone := htaken.mp (hclean s' hwrite).1
  rw [hblocks, h.createFile_freeBelow, missing_of_no_blocks (h.createFile_pointer _ 0)] at hnone
  omega

end OsConcepts.Sfs
