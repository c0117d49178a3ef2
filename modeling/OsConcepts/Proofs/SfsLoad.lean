import OsConcepts.Proofs.SfsWrite

/-!
# The buffer of a write

`sfs_fwrite` seeks to the start of the file, reads all of it, and copies the
caller's bytes over what it has read. For a file that has the blocks its size
says nothing fails on the way, and the buffer is known byte by byte
(`loadFileData_eq`). Where blocks are missing the read fails and the buffer is
whatever `malloc` gave; the write comes back all the same (`sfsFwrite_ok`).
-/

namespace OsConcepts.Sfs

open OsConcepts

variable {s s' : Sfs} {f : Fin 300} {junk buf : Mem} {count ret : Int}

/-! ## Reading the old data -/

theorem sfsFseek_eq {loc : Int} (hloc : 0 ≤ loc) (hsize : loc ≤ (s.iNodes f).size)
    (hopen : 0 ≤ s.openFDTCache f) :
    sfsFseek (f : Nat) loc s = .ok (0, s.setReadWritePointer f loc) := by
  unfold sfsFseek
  rw [if_neg (by omega), slot?_natCast]
  dsimp only
  rw [if_neg (by omega), if_neg (by omega)]

theorem Rereads.byteAt (h : Rereads f s s') (g : Fin 300) (k : Nat) :
    s'.byteAt g k = s.byteAt g k := by
  have hbp := h.sameBlocks.blockPointer g (k / 1024)
  obtain ⟨p, q, rfl⟩ := h
  unfold Sfs.byteAt
  rw [hbp]
  simp

theorem Rereads.iNodes (h : Rereads f s s') (g : Fin 300) : s'.iNodes g = s.iNodes g := by
  obtain ⟨p, q, rfl⟩ := h
  simp

theorem Rereads.contents (h : Rereads f s s') (g : Fin 300) : s'.contents g = s.contents g := by
  unfold Sfs.contents
  rw [h.iNodes]
  exact List.map_congr_left fun k _ => h.byteAt g k

theorem Rereads.backed (h : Rereads f s s') {g : Fin 300} (hg : Backed s g) : Backed s' g := by
  unfold Backed at *
  rw [h.iNodes]
  refine ⟨hg.1, hg.2.1, ?_⟩
  intro k hk
  rw [h.sameBlocks.blockPointer]
  exact hg.2.2 k hk

variable (junk) in
/-- Seeking to the start and reading the whole file delivers its contents. -/
theorem read_from_start (hs : InRange s f) (hf : Backed s f) (hopen : 0 ≤ s.openFDTCache f) :
    ∃ s₁ s₂, sfsFseek (f : Nat) 0 s = .ok (0, s₁) ∧ s₁ = s.setReadWritePointer f 0 ∧
      sfsFread junk (f : Nat) (s.iNodes f).size s₁ =
        .ok ((s.iNodes f).size, s.contents f, s₂) ∧
      ∃ p, s₂ = (s.seek p).setReadWritePointer f (s.iNodes f).size := by
  have hmove : Rereads f s (s.setReadWritePointer f 0) := .move f s 0
  obtain ⟨s₂, hread, p, hs₂⟩ := sfsFread_contents junk
    (hs.congr (hmove.sameBlocks.pointer f)) (hmove.backed hf) (by simp)
  rw [hmove.contents, hmove.iNodes] at hread
  refine ⟨_, s₂, sfsFseek_eq (Int.le_refl 0) hf.1 hopen, rfl, hread, p, ?_⟩
  rw [hs₂, hmove.iNodes]
  simp [setReadWritePointer, seek]

variable (junk buf count) in
/-- The buffer the loop starts from: the file's bytes with the caller's over
them. -/
theorem loadFileData_eq (capacity : Int) (hs : NoSharing s) (hf : Backed s f)
    (hopen : 0 ≤ s.openFDTCache f) (hcap : (s.iNodes f).size ≤ capacity)
    (hfit : s.openFDTCache f + count ≤ capacity) :
    ∃ data s₀, loadFileData junk f buf count capacity s = .ok (data, s₀) ∧
      (∃ p, s₀ = (s.seek p).setReadWritePointer f (s.iNodes f).size) ∧
      ∀ k : Nat, data k =
        if s.openFDTCache f ≤ k ∧ (k : Int) < s.openFDTCache f + count then
          buf (k - (s.openFDTCache f).toNat)
        else if (k : Int) < (s.iNodes f).size then s.byteAt f k else junk k := by
  obtain ⟨s₁, s₂, hseek, hs₁, hread, p, hs₂⟩ := read_from_start junk (hs.range f) hf hopen
  have hsize := hf.1
  have hnode₁ : s₁.iNodes f = s.iNodes f := by rw [hs₁]; simp
  have hfdt₂ : s₂.openFDTCache f = (s.iNodes f).size := by rw [hs₂]; simp
  have hnode₂ : s₂.iNodes f = s.iNodes f := by rw [hs₂]; simp
  have hseek₂ : sfsFseek (f : Nat) (s₂.openFDTCache f) s₂ = .ok (0, s₂) := by
    have hback : s₂.setReadWritePointer f (s₂.openFDTCache f) = s₂ :=
      setReadWritePointer_eq_self s₂ f
    rw [sfsFseek_eq (by omega) (by rw [hfdt₂, hnode₂]) (by omega), hback]
  refine ⟨memcpy (memcpy junk 0 (Mem.ofList (s.contents f)) (s.contents f).length)
    (s.openFDTCache f).toNat buf count.toNat, s₂, ?_, ⟨p, hs₂⟩, fun k => ?_⟩
  · unfold loadFileData
    simp only [hseek, hnode₁, hread, bind, Except.bind]
    rw [if_neg (by rw [length_contents]; omega)]
    simp only [hseek₂]
    rw [if_neg (by omega)]
    rfl
  · by_cases hk : s.openFDTCache f ≤ k ∧ (k : Int) < s.openFDTCache f + count
    · rw [if_pos hk, memcpy_in (by omega) (by omega)]
    · rw [if_neg hk, memcpy_out (by omega)]
      by_cases hk' : (k : Int) < (s.iNodes f).size
      · have hlen : k < (s.contents f).length := by rw [length_contents]; omega
        rw [if_pos hk', memcpy_in (Nat.zero_le k) (by omega), Nat.sub_zero,
          Mem.ofList_apply hlen]
        simp [contents]
      · rw [if_neg hk', memcpy_out (by rw [length_contents]; omega)]

/-! ## Coming back -/

variable (junk) in
/-- Reading a whole file from its start comes back, with all of it or nothing. -/
theorem sfsFread_from_start_ok (hlow : 0 ≤ (s.iNodes f).size)
    (hhigh : (s.iNodes f).size ≤ 268 * 1024) (hopen : s.openFDTCache f = 0) :
    ∃ r bytes s', sfsFread junk (f : Nat) (s.iNodes f).size s = .ok (r, bytes, s') ∧
      (bytes.length : Int) ≤ (s.iNodes f).size ∧ 0 ≤ s'.openFDTCache f := by
  have hblocks := numBlocksForFile_eq hlow
  have hall : wrap32 (0 + (s.iNodes f).size) = (s.iNodes f).size := by
    rw [Int.zero_add]
    exact wrap32_of_range ⟨by omega, by omega⟩
  have hcap : wrap32 (numBlocksForFile (s.iNodes f).size * 1024) =
      numBlocksForFile (s.iNodes f).size * 1024 := wrap32_of_range ⟨by omega, by omega⟩
  unfold sfsFread
  rw [if_neg (by omega), slot?_natCast]
  dsimp only
  rw [hopen, if_neg (by omega), hall, if_neg (Int.lt_irrefl _), hcap, if_neg (by omega)]
  split
  · exact ⟨_, _, _, rfl, by simpa using hlow, by simp [hopen]⟩
  · rw [if_neg (by omega), hall]
    exact ⟨_, _, _, rfl, by rw [Mem.length_slice]; omega, by simp [hlow]⟩

variable (f) in
theorem sfsFseek_slot_ok (loc : Int) (s : Sfs) : ∃ r, sfsFseek (f : Nat) loc s = .ok r := by
  unfold sfsFseek
  split
  · exact ⟨_, rfl⟩
  · rw [slot?_natCast]
    dsimp only
    split
    · exact ⟨_, rfl⟩
    · split <;> exact ⟨_, rfl⟩

variable (junk buf count) in
/-- The buffer of a write can be set up whether or not the file has its blocks. -/
theorem loadFileData_ok (capacity : Int) (hlow : 0 ≤ (s.iNodes f).size)
    (hhigh : (s.iNodes f).size ≤ 268 * 1024) (hopen : 0 ≤ s.openFDTCache f)
    (hcap : (s.iNodes f).size ≤ max capacity 0)
    (hfit : 0 < count → s.openFDTCache f + count ≤ capacity) :
    ∃ r, loadFileData junk f buf count capacity s = .ok r := by
  have hnode : ∀ q, (s.setReadWritePointer f q).iNodes f = s.iNodes f := fun q => by simp
  obtain ⟨r, bytes, s₂, hread, hlen, -⟩ := sfsFread_from_start_ok junk
    (s := s.setReadWritePointer f 0) (f := f) (by rw [hnode]; exact hlow)
    (by rw [hnode]; exact hhigh) (by simp)
  rw [hnode] at hlen
  obtain ⟨⟨r₃, s₃⟩, hseek₂⟩ := sfsFseek_slot_ok f (s₂.openFDTCache f) s₂
  unfold loadFileData
  simp only [sfsFseek_eq (Int.le_refl 0) hlow hopen, hread, bind, Except.bind]
  rw [if_neg (by omega)]
  simp only [hseek₂]
  rw [if_neg (by omega)]
  exact ⟨_, rfl⟩

variable (junk buf count) in
/-- A write that does not reach the end of the `int` range comes back, with
whatever result. -/
theorem sfsFwrite_ok (hlow : 0 ≤ (s.iNodes f).size) (hhigh : (s.iNodes f).size ≤ 268 * 1024)
    (hopen : 0 ≤ s.openFDTCache f) (hcount : 0 ≤ count)
    (hint : s.openFDTCache f + count ≤ 2147482624) :
    ∃ ret s', sfsFwrite junk (f : Nat) buf count s = .ok (ret, s') := by
  unfold sfsFwrite
  rw [if_neg (by omega), slot?_natCast]
  dsimp only
  rw [if_neg (by omega)]
  split
  · exact ⟨_, _, rfl⟩
  · have hnew : wrap32 (s.openFDTCache f + count) = s.openFDTCache f + count :=
      wrap32_of_range ⟨by omega, by omega⟩
    rw [hnew]
    generalize hfs : (if s.openFDTCache f + count > (s.iNodes f).size then
      s.openFDTCache f + count else (s.iNodes f).size) = fileSize
    have hblocks := numBlocksForFile_eq (show 0 ≤ fileSize by split at hfs <;> omega)
    have hcap : wrap32 (numBlocksForFile fileSize * 1024) = numBlocksForFile fileSize * 1024 :=
      wrap32_of_range (by split at hfs <;> exact ⟨by omega, by omega⟩)
    obtain ⟨⟨data, s₀⟩, hload⟩ := loadFileData_ok junk buf count
      (numBlocksForFile fileSize * 1024) hlow hhigh hopen
      (by split at hfs <;> omega) (by split at hfs <;> omega)
    obtain ⟨⟨done, s₂⟩, hloop⟩ := writeLoop_ok f junk data
      (numBlocksForFile fileSize * 1024) (n := (numBlocksForFile fileSize).toNat) (k := 0)
      (l := ⟨s.iNodes f, none⟩) (s := s₀) (by omega)
    simp only [hcap, hload, hloop, bind, Except.bind]
    split <;> exact ⟨_, _, rfl⟩

theorem newFileSize_eq (hcount : 0 ≤ count) (hopen : 0 ≤ s.openFDTCache f)
    (hint : s.openFDTCache f + count < 2147483648) :
    s.newFileSize f count = max (s.iNodes f).size (s.openFDTCache f + count) := by
  unfold newFileSize
  rw [wrap32_of_range ⟨by omega, hint⟩]
  split <;> omega

variable (junk buf count) in
/-- A write that finds its blocks goes through. -/
theorem sfsFwrite_of_enough (hs : Owned s) (hlow : 0 ≤ (s.iNodes f).size)
    (hhigh : (s.iNodes f).size ≤ 268 * 1024) (hopen : 0 ≤ s.openFDTCache f) (hcount : 0 ≤ count)
    (hint : s.openFDTCache f + count ≤ 2147482624) (hbuf : strnlen buf 2048001 0 ≤ 2048000)
    (hn : s.blocksToWrite f count ≤ 268)
    (henough : s.missing f 0 (s.blocksToWrite f count) ≤ s.freeBelow 1024) :
    ∃ data s₀ s₁, sfsFwrite junk (f : Nat) buf count s =
        .ok (count, s₁.finishWrite f (s.newFileSize f count)) ∧
      Rereads f s s₀ ∧ Progress f 0 (s.blocksToWrite f count) data s₀ s₁ := by
  obtain ⟨ret, s', hwrite⟩ := sfsFwrite_ok junk buf count hlow hhigh hopen hcount hint
  rcases sfsFwrite_cases hs hwrite with ⟨-, -, hrefused⟩ | ⟨g, data, s₀, ha, hload, hout⟩
  · exact absurd ⟨hcount, slot?_natCast f, hopen, hbuf⟩ (hrefused f)
  · obtain rfl : f = g := Option.some.inj ((slot?_natCast f).symm.trans ha.slot)
    have hre := loadFileData_rereads hload
    rw [← hre.sameBlocks.missing, ← hre.sameBlocks.freeBelow] at henough
    obtain ⟨s₁, hP, rfl, rfl⟩ := hout.done_of_enough hn henough
    exact ⟨data, s₀, s₁, hwrite, hre, hP⟩

end OsConcepts.Sfs
