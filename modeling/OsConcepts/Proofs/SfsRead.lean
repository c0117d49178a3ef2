import OsConcepts.Proofs.SfsLoop

/-!
# Reading

`sfs_fread` and `sfs_fseek` move the stream and one descriptor and nothing else
(`Rereads`), whatever the state. What they deliver is `contents`: the bytes of
a file's blocks in the order of its block pointers, cut off at its size.
-/

namespace OsConcepts.Sfs

open OsConcepts

variable {s s' s'' : Sfs} {f g : Fin 300} {junk : Mem}

/-! ## What reading changes -/

/-- The stream and the descriptor of one file may have moved. -/
def Rereads (f : Fin 300) (s s' : Sfs) : Prop :=
  ∃ p q, s' = (s.seek p).setReadWritePointer f q

theorem setReadWritePointer_eq_self (s : Sfs) (f : Fin 300) :
    s.setReadWritePointer f (s.openFDTCache f) = s := by
  unfold setReadWritePointer
  rw [Function.update_eq_self]

@[simp] theorem pointer_setReadWritePointer (s : Sfs) (f g : Fin 300) (q : Int) :
    (s.setReadWritePointer f q).pointer g = s.pointer g := (rfl)

theorem Rereads.refl (f : Fin 300) (s : Sfs) : Rereads f s s :=
  ⟨s.disk.pos, s.openFDTCache f, by rw [seek_self, setReadWritePointer_eq_self]⟩

theorem Rereads.seek (f : Fin 300) (s : Sfs) (p : Nat) : Rereads f s (s.seek p) :=
  ⟨p, s.openFDTCache f, (setReadWritePointer_eq_self (s.seek p) f).symm⟩

theorem Rereads.move (f : Fin 300) (s : Sfs) (q : Int) :
    Rereads f s (s.setReadWritePointer f q) :=
  ⟨s.disk.pos, q, by rw [seek_self]⟩

theorem Rereads.trans (h : Rereads f s s') (h' : Rereads f s' s'') : Rereads f s s'' := by
  obtain ⟨p, q, rfl⟩ := h
  obtain ⟨p', q', rfl⟩ := h'
  refine ⟨p', q', ?_⟩
  simp [setReadWritePointer, Sfs.seek]

variable (junk) in
theorem readBlock_disk (blockIndex : Nat) (blockNumber : Int) (r : ReadState) :
    ∃ p, (readBlock junk blockIndex blockNumber r).1.disk = r.disk.moveTo p := by
  unfold readBlock
  split
  · exact ⟨r.disk.pos, rfl⟩
  · exact Disk.readBlocks_disk_pos junk r.blockBuffer blockNumber 1 r.disk

variable (junk) in
theorem loadIndirect_disk (node : INode) (r : ReadState) :
    ∃ p, (loadIndirect junk node r).2.disk = r.disk.moveTo p := by
  unfold loadIndirect
  split
  · exact ⟨r.disk.pos, rfl⟩
  · exact Disk.readBlocks_disk_pos junk junk node.indirectPointer 1 r.disk

variable (junk) in
theorem readStep_disk (node : INode) (blockIndex : Nat) (r : ReadState) :
    ∃ p, (readStep junk node blockIndex r).1.disk = r.disk.moveTo p := by
  unfold readStep
  split
  · exact readBlock_disk _ _ _ _
  · obtain ⟨p, hp⟩ := loadIndirect_disk junk node r
    dsimp only
    split
    · obtain ⟨p', hp'⟩ := readBlock_disk junk blockIndex
        ((loadIndirect junk node r).1 ⟨blockIndex - 12, ‹_›⟩) (loadIndirect junk node r).2
      exact ⟨p', by rw [hp', hp, Disk.moveTo_moveTo]⟩
    · exact ⟨p, hp⟩

variable (junk) in
theorem readLoop_disk (node : INode) : ∀ (n blockIndex : Nat) (r : ReadState),
    ∃ p, (readLoop junk node n blockIndex r).1.disk = r.disk.moveTo p := by
  intro n
  induction n with
  | zero => intro blockIndex r; exact ⟨r.disk.pos, rfl⟩
  | succ n ih =>
      intro blockIndex r
      obtain ⟨p, hp⟩ := readStep_disk junk node blockIndex r
      rw [readLoop]
      split
      · next r' heq =>
          obtain ⟨p', hp'⟩ := ih (blockIndex + 1) r'
          rw [heq] at hp
          exact ⟨p', by rw [hp', hp, Disk.moveTo_moveTo]⟩
      · next r' heq =>
          rw [heq] at hp
          exact ⟨p, hp⟩

theorem sfsFseek_rereads {fd loc ret : Int} (h : sfsFseek fd loc s = .ok (ret, s')) :
    s' = s ∨ ∃ f, slot? fd = some f ∧ s' = s.setReadWritePointer f loc := by
  unfold sfsFseek at h
  split at h
  · cases h; exact Or.inl rfl
  · split at h
    · cases h
    · next f hf =>
        split at h
        · cases h; exact Or.inl rfl
        · split at h
          · cases h; exact Or.inl rfl
          · cases h; exact Or.inr ⟨f, hf, rfl⟩

theorem sfsFread_rereads {fd count ret : Int} {bytes : List Byte}
    (h : sfsFread junk fd count s = .ok (ret, bytes, s')) :
    s' = s ∨ ∃ f, slot? fd = some f ∧ Rereads f s s' := by
  unfold sfsFread at h
  split at h
  · cases h; exact Or.inl rfl
  · split at h
    · cases h; exact Or.inl rfl
    · next f hf =>
        dsimp only at h
        split at h
        · cases h; exact Or.inl rfl
        · split at h
          · cases h
          · obtain ⟨p, hp⟩ := readLoop_disk junk (s.iNodes f)
              (numBlocksForFile (s.iNodes f).size).toNat 0 ⟨fun _ => 0, fun _ => 0, none, s.disk⟩
            split at h
            · next r heq =>
                rw [heq] at hp
                dsimp only at hp
                cases h
                rw [hp]
                exact Or.inr ⟨f, hf, .seek f s p⟩
            · next r heq =>
                rw [heq] at hp
                dsimp only at hp
                generalize (if (s.iNodes f).size < wrap32 (s.openFDTCache f + count) then
                  wrap32 ((s.iNodes f).size - s.openFDTCache f) else count) = bytesToRead at h
                split at h
                · cases h
                · cases h
                  rw [hp]
                  exact Or.inr ⟨f, hf, (Rereads.seek f s p).trans (.move f _ _)⟩

/-- A sequence of steps that goes through went through step by step. -/
theorem ok_bind {ε α β : Type} {x : Except ε α} {k : α → Except ε β} {b : β}
    (h : (x >>= k) = .ok b) : ∃ a, x = .ok a ∧ k a = .ok b := by
  cases x with
  | error e => cases h
  | ok a => exact ⟨a, rfl, h⟩

theorem exists_ok_bind {ε α β : Type} {x : Except ε α} {k : α → Except ε β}
    (h : ∃ a, x = .ok a) (hk : ∀ a, ∃ b, k a = .ok b) : ∃ b, (x >>= k) = .ok b := by
  obtain ⟨a, rfl⟩ := h
  exact hk a

theorem loadFileData_rereads {buf m : Mem} {count capacity : Int}
    (h : loadFileData junk f buf count capacity s = .ok (m, s')) : Rereads f s s' := by
  have hfseek : ∀ {loc ret : Int} {t t' : Sfs},
      sfsFseek (f : Nat) loc t = .ok (ret, t') → Rereads f t t' := by
    intro loc ret t t' h
    rcases sfsFseek_rereads h with rfl | ⟨g, hg, rfl⟩
    · exact .refl f t'
    · rw [slot?_natCast] at hg
      cases hg
      exact .move f t loc
  have hfread : ∀ {count ret : Int} {bytes : List Byte} {t t' : Sfs},
      sfsFread junk (f : Nat) count t = .ok (ret, bytes, t') → Rereads f t t' := by
    intro count ret bytes t t' h
    rcases sfsFread_rereads h with rfl | ⟨g, hg, h⟩
    · exact .refl f t'
    · rw [slot?_natCast] at hg
      cases hg
      exact h
  unfold loadFileData at h
  obtain ⟨⟨r₁, s₁⟩, h₁, h⟩ := ok_bind h
  obtain ⟨⟨r₂, bytes, s₂⟩, h₂, h⟩ := ok_bind h
  dsimp only at h
  split at h
  · cases h
  · obtain ⟨⟨r₃, s₃⟩, h₃, h⟩ := ok_bind h
    dsimp only at h
    split at h
    · cases h
    · cases h
      exact (hfseek h₁).trans ((hfread h₂).trans (hfseek h₃))

/-! ## What reading delivers -/

/-- Byte `k` of a file, found through its block pointers. -/
def byteAt (s : Sfs) (f : Fin 300) (k : Nat) : Byte :=
  s.disk.block (s.blockPointer f (k / 1024)).toNat ⟨k % 1024, Nat.mod_lt _ (by omega)⟩

/-- The bytes of a file. -/
def contents (s : Sfs) (f : Fin 300) : List Byte :=
  (List.range (s.iNodes f).size.toNat).map (s.byteAt f)

@[simp] theorem length_contents : (s.contents f).length = (s.iNodes f).size.toNat := by
  simp [contents]

theorem getElem?_contents {i : Nat} (hi : (i : Int) < (s.iNodes f).size) :
    (s.contents f)[i]? = some (s.byteAt f i) := by
  unfold contents
  rw [List.getElem?_map, List.getElem?_range (by omega)]
  rfl

/-- The bytes of a file from position `p` on, at most `count` of them. -/
def window (s : Sfs) (f : Fin 300) (p count : Int) : List Byte :=
  ((s.contents f).drop p.toNat).take count.toNat

/-- The read loop works on the disk of `s`, and an indirect block it has loaded
is that of file `f`. -/
structure Reading (s : Sfs) (f : Fin 300) (r : ReadState) : Prop where
  disk : ∃ p, r.disk = s.disk.moveTo p
  loaded : ∀ ib, r.indirectBlock = some ib → ∀ j, ib j = s.pointer f (.entry j)

theorem readBlock_eq {r : ReadState} (hr : Reading s f r) (k : Nat) {b : Fin 1024} :
    ∃ r', readBlock junk k (b : Nat) r = (r', true) ∧ Reading s f r' ∧
      r'.fileDataBuffer = memcpy r.fileDataBuffer (k * 1024)
        (fun i => s.disk.bytes (b * 1024 + i)) 1024 := by
  have hlt := b.isLt
  obtain ⟨p, hp⟩ := hr.disk
  unfold readBlock
  rw [if_neg (by omega), Disk.readBlock_eq (by decide) disk_size_lt (by omega)]
  refine ⟨_, rfl, ⟨⟨(b.val + 1) * 1024, by rw [hp, Disk.moveTo_moveTo]⟩, hr.loaded⟩, ?_⟩
  funext i
  dsimp only
  rw [hp]
  by_cases hi : k * 1024 ≤ i ∧ i < k * 1024 + 1024
  · rw [memcpy_in hi.1 hi.2, memcpy_in hi.1 hi.2, memcpy_in (by omega) (by omega), Nat.sub_zero,
      Disk.bytes_moveTo]
  · rw [memcpy_out (by omega), memcpy_out (by omega)]

variable (junk) in
theorem loadIndirect_eq (hs : InRange s f) {r : ReadState} (hr : Reading s f r)
    (hind : s.pointer f .indirect ≠ -1) :
    ∃ ib r', loadIndirect junk (s.iNodes f) r = (ib, r') ∧ Reading s f r' ∧
      r'.fileDataBuffer = r.fileDataBuffer ∧ ∀ j, ib j = s.pointer f (.entry j) := by
  obtain ⟨a, ha⟩ := hs.nat_of_pointer hind
  have hlt := a.isLt
  obtain ⟨p, hp⟩ := hr.disk
  cases hl : r.indirectBlock with
  | some ib =>
      refine ⟨ib, r, ?_, hr, rfl, hr.loaded ib hl⟩
      unfold loadIndirect
      rw [hl]
  | none =>
      have ha' : (s.iNodes f).indirectPointer = (a : Nat) := ha
      have hne : ¬ ((a : Nat) : Int) = -1 := by omega
      have hentry : ∀ j, s.indirectBlockAt (a : Nat) j = s.pointer f (.entry j) := by
        intro j
        simp only [pointer, ha', hne, if_false]
      unfold loadIndirect
      rw [hl]
      dsimp only
      rw [ha', Disk.readBlock_eq (by decide) disk_size_lt (by omega), hp,
        Disk.bytes_moveTo, Disk.moveTo_moveTo]
      dsimp only
      rw [ofImage_memcpy_block]
      refine ⟨_, _, rfl, ⟨⟨_, rfl⟩, fun ib hib j => ?_⟩, rfl, hentry⟩
      rw [← Option.some.inj hib, hentry j]

variable (junk) in
theorem readStep_eq (hs : InRange s f) {r : ReadState} (hr : Reading s f r) {k : Nat}
    {b : Fin 1024} (hb : s.blockPointer f k = (b : Nat)) :
    ∃ r', readStep junk (s.iNodes f) k r = (r', true) ∧ Reading s f r' ∧
      r'.fileDataBuffer = memcpy r.fileDataBuffer (k * 1024)
        (fun i => s.disk.bytes (b * 1024 + i)) 1024 := by
  have hk : k < 268 := by
    by_contra hk
    rw [blockPointer_past (by omega)] at hb
    omega
  rw [blockPointer_eq hk] at hb
  unfold readStep
  by_cases h12 : k < 12
  · rw [dataRef_direct h12] at hb
    have hb' : (s.iNodes f).directPointers ⟨k, h12⟩ = (b : Nat) := hb
    rw [dif_pos h12, hb']
    exact readBlock_eq hr k
  · have hk256 : k - 12 < 256 := by omega
    rw [dataRef_entry (by omega) hk256] at hb
    have hind : s.pointer f .indirect ≠ -1 := by
      intro h
      have h' : (s.iNodes f).indirectPointer = -1 := h
      simp only [pointer, h', if_true] at hb
      omega
    obtain ⟨ib, r', hload, hr', hbuf, hib⟩ := loadIndirect_eq junk hs hr hind
    rw [dif_neg h12, hload]
    dsimp only
    rw [dif_pos hk256, hib, hb, ← hbuf]
    exact readBlock_eq hr' k

variable (junk) in
/-- The loop fills the buffer with the blocks of the file. -/
theorem readLoop_eq (hs : InRange s f) : ∀ {n k : Nat} {r : ReadState}, Reading s f r →
    (∀ j, k ≤ j → j < k + n → s.blockPointer f j ≠ -1) →
    ∃ r', readLoop junk (s.iNodes f) n k r = (r', true) ∧
      (∃ p, r'.disk = s.disk.moveTo p) ∧
      (∀ i, i / 1024 < k → r'.fileDataBuffer i = r.fileDataBuffer i) ∧
      ∀ i, k ≤ i / 1024 → i / 1024 < k + n → r'.fileDataBuffer i = s.byteAt f i := by
  intro n
  induction n with
  | zero =>
      intro k r hr _
      exact ⟨r, rfl, hr.disk, fun _ _ => rfl, fun i h h' => by omega⟩
  | succ n ih =>
      intro k r hr hthere
      have hk := hthere k (Nat.le_refl _) (by omega)
      have hlt : k < 268 := by
        by_contra hlt
        exact hk (blockPointer_past (by omega))
      obtain ⟨b, hb⟩ := hs.nat_of_pointer (by rwa [blockPointer_eq hlt] at hk)
      rw [← blockPointer_eq hlt] at hb
      obtain ⟨r₁, hstep, hr₁, hbuf⟩ := readStep_eq junk hs hr hb
      obtain ⟨r', hloop, hdisk, hlow, hhigh⟩ := ih (k := k + 1) hr₁
        fun j hj hj' => hthere j (by omega) (by omega)
      refine ⟨r', ?_, hdisk, fun i hi => ?_, fun i hi hi' => ?_⟩
      · rw [readLoop, hstep]
        exact hloop
      · rw [hlow i (by omega), hbuf, memcpy_out (by omega)]
      · by_cases hdiv : i / 1024 = k
        · rw [hlow i (by omega), hbuf, memcpy_in (by omega) (by omega), byteAt, hdiv, hb,
            Int.toNat_natCast, Disk.block]
          congr 1
          simp only
          omega
        · exact hhigh i (by omega) (by omega)

theorem numBlocksForFile_eq {size : Int} (h : 0 ≤ size) :
    numBlocksForFile size = (size + 1023) / 1024 := by
  unfold numBlocksForFile
  rw [Int.tdiv_eq_ediv_of_nonneg h, Int.tmod_eq_emod_of_nonneg h]
  split <;> omega

variable (junk) in
/-- Reading from a position inside a file delivers the contents from there on,
as many bytes as were asked for or as are left. -/
theorem sfsFread_eq (hs : InRange s f) (hf : Backed s f) {count : Int} (hcount : 0 ≤ count)
    (hopen : 0 ≤ s.openFDTCache f) (hin : s.openFDTCache f ≤ (s.iNodes f).size)
    (hint : s.openFDTCache f + count < 2147483648) :
    ∃ p, sfsFread junk (f : Nat) count s =
      .ok (min count ((s.iNodes f).size - s.openFDTCache f),
        s.window f (s.openFDTCache f) count,
        (s.seek p).setReadWritePointer f (min (s.openFDTCache f + count) (s.iNodes f).size)) := by
  obtain ⟨hsize, hmax, hthere⟩ := hf
  have hblocks := numBlocksForFile_eq hsize
  obtain ⟨r', hloop, ⟨p, hp⟩, -, hbuf⟩ := readLoop_eq junk (f := f) (k := 0)
    (n := (numBlocksForFile (s.iNodes f).size).toNat) hs
    (r := ⟨fun _ => 0, fun _ => 0, none, s.disk⟩) ⟨⟨s.disk.pos, rfl⟩, fun _ h => by cases h⟩
    fun j _ hj => hthere j (by omega)
  have hcap : wrap32 (numBlocksForFile (s.iNodes f).size * 1024) =
      numBlocksForFile (s.iNodes f).size * 1024 := wrap32_of_range ⟨by omega, by omega⟩
  have hclip : (if (s.iNodes f).size < wrap32 (s.openFDTCache f + count) then
      wrap32 ((s.iNodes f).size - s.openFDTCache f) else count) =
      min count ((s.iNodes f).size - s.openFDTCache f) := by
    rw [wrap32_of_range ⟨by omega, hint⟩, wrap32_of_range ⟨by omega, by omega⟩]
    split <;> omega
  have hcontents : s.contents f = r'.fileDataBuffer.slice 0 (s.iNodes f).size.toNat := by
    unfold Mem.slice contents
    refine List.map_congr_left ?_
    intro i hi
    rw [List.mem_range] at hi
    rw [Nat.zero_add, hbuf i (by omega) (by omega)]
  have hslice : r'.fileDataBuffer.slice (s.openFDTCache f).toNat
      (min count ((s.iNodes f).size - s.openFDTCache f)).toNat =
      s.window f (s.openFDTCache f) count := by
    have hin : (s.openFDTCache f).toNat + (min count ((s.iNodes f).size - s.openFDTCache f)).toNat
        ≤ (s.iNodes f).size.toNat := by omega
    rw [window, hcontents, ← Mem.slice_window _ hin,
      List.take_eq_take_iff, List.length_drop, Mem.length_slice]
    omega
  refine ⟨p, ?_⟩
  unfold sfsFread
  rw [if_neg (by omega), slot?_natCast]
  dsimp only
  rw [if_neg (by omega), hclip, hcap, if_neg (by omega), hloop]
  dsimp only
  rw [if_neg (by omega), hp, hslice, wrap32_of_range ⟨by omega, by omega⟩,
    show s.openFDTCache f + min count ((s.iNodes f).size - s.openFDTCache f) =
      min (s.openFDTCache f + count) (s.iNodes f).size by omega]
  rfl

variable (junk) in
/-- Reading a whole file from its start delivers its contents. -/
theorem sfsFread_contents (hs : InRange s f) (hf : Backed s f) (hopen : s.openFDTCache f = 0) :
    ∃ s', sfsFread junk (f : Nat) (s.iNodes f).size s =
      .ok ((s.iNodes f).size, s.contents f, s') ∧
      ∃ p, s' = (s.seek p).setReadWritePointer f (s.iNodes f).size := by
  have hsize := hf.1
  have hmax := hf.2.1
  obtain ⟨p, hread⟩ := sfsFread_eq junk hs hf hsize (by omega) (by omega) (by omega)
  refine ⟨_, hread.trans ?_, p, rfl⟩
  rw [hopen, Int.sub_zero, Int.zero_add, min_self, window, Int.toNat_zero, List.drop_zero,
    List.take_of_length_le (by rw [length_contents])]

end OsConcepts.Sfs
