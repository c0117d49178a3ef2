import OsConcepts.Proofs.WriteSplice

/-!
# When a write succeeds

A write of `n` bytes goes through exactly when the file can have as many blocks
as it will need and those it lacks are free, its indirect block among them; it
then takes just these. Nothing is asked of the file's own blocks here: where
some below its size are missing, the reading inside the write fails unnoticed
and the blocks are allocated like any others.
-/

namespace OsConcepts.Sfs

open OsConcepts

variable {s s' : Sfs} {f : Fin 300} {junk buf : Mem} {count : Int}

/-- `ceil(max(size, p + n) / 1024)`. -/
def blocksAfter (s : Sfs) (f : Fin 300) (count : Int) : Nat :=
  ((max (s.iNodes f).size (s.openFDTCache f + count) + 1023) / 1024).toNat

/-- The block indexes below `n` whose pointer is -1, and one more for the
indirect block where it is needed and missing. -/
def blocksLacking (s : Sfs) (f : Fin 300) (n : Nat) : Nat :=
  (List.range n).countP (fun k => s.blockPointer f k = -1) +
    if 12 < n ∧ s.pointer f .indirect = -1 then 1 else 0

/-- The blocks the free list marks as free. -/
def freeBlocks (s : Sfs) : Nat :=
  (Finset.univ.filter fun b : Fin 1024 => s.freeBlockListCache b ≠ OccupiedBlock).card

theorem missing_eq_blocksLacking (s : Sfs) (f : Fin 300) (n : Nat) :
    s.missing f 0 n = s.blocksLacking f n := by
  induction n with
  | zero => rfl
  | succ n ih =>
      rw [missing_succ, ih, Nat.zero_add]
      unfold blocksLacking need
      rw [List.range_succ, List.countP_append, List.countP_singleton]
      by_cases hn : n = 12
      · subst hn
        simp
        omega
      · have hiff : 12 < n + 1 ↔ 12 < n := by omega
        simp only [hn, hiff, false_and, if_false, Nat.add_zero, decide_eq_true_eq]
        omega

theorem freeBelow_eq_freeBlocks (s : Sfs) : s.freeBelow 1024 = s.freeBlocks := by
  rw [Sfs.freeBelow, FirstFit.freeBelow, freeBlocks]
  refine congrArg Finset.card (Finset.filter_congr fun b _ => ?_)
  have hb : b.val < 1024 := b.isLt
  simp only [freeCell, hb, true_and, bne_iff_ne]

theorem blocksToWrite_eq (hcount : 0 ≤ count) (hopen : 0 ≤ s.openFDTCache f)
    (hint : s.openFDTCache f + count < 2147483648) :
    s.blocksToWrite f count = s.blocksAfter f count := by
  unfold blocksToWrite blocksAfter
  rw [newFileSize_eq hcount hopen hint, numBlocksForFile_eq (by omega)]

/-- A write returns its count exactly when the file's blocks are within reach of
its pointers and enough are free, and takes exactly those it lacks; else it
returns -1. -/
theorem sfsFwrite_succeeds_iff (hs : Isolated s) (hopen : 0 ≤ s.openFDTCache f)
    (hle : s.openFDTCache f ≤ (s.iNodes f).size) (hmax : (s.iNodes f).size ≤ 268 * 1024)
    (hcount : 0 ≤ count) (hint : s.openFDTCache f + count ≤ 2147483648 - 1024)
    (hbuf : strnlen buf 2048001 0 ≤ 2048000) (junk : Mem) :
    ∃ ret s', sfsFwrite junk (f : Nat) buf count s = .ok (ret, s') ∧
      (ret = count ↔ s.blocksAfter f count ≤ 268 ∧
        s.blocksLacking f (s.blocksAfter f count) ≤ s.freeBlocks) ∧
      (ret ≠ count → ret = -1) ∧
      (ret = count →
        s'.freeBlocks + s.blocksLacking f (s.blocksAfter f count) = s.freeBlocks) := by
  obtain ⟨ret, s', hwrite⟩ := sfsFwrite_ok junk buf count (by omega) hmax hopen hcount (by omega)
  refine ⟨ret, s', hwrite, ?_⟩
  rw [← missing_eq_blocksLacking, ← freeBelow_eq_freeBlocks, ← freeBelow_eq_freeBlocks,
    ← blocksToWrite_eq hcount hopen (by omega)]
  rcases sfsFwrite_cases hs.toOwned hwrite with ⟨-, -, hrefused⟩ | ⟨g, data, s₀, ha, hload, hout⟩
  · exact absurd ⟨hcount, slot?_natCast f, hopen, hbuf⟩ (hrefused f)
  · have hg : g = f := (Option.some.inj ((slot?_natCast f).symm.trans ha.slot)).symm
    subst hg
    have hsame := (loadFileData_rereads hload).sameBlocks
    rw [← hsame.missing, ← hsame.freeBelow]
    cases hout with
    | @done s₁ hP =>
        have hwithin : s.blocksToWrite g count ≤ 268 := by
          by_cases hn : 0 < s.blocksToWrite g count
          · have := hP.within hn
            omega
          · omega
        have hfree : (s₁.finishWrite g (s.newFileSize g count)).freeBelow 1024 =
            s₁.freeBelow 1024 := (finishWrite_sameBlocks hP.owned _).freeBelow 1024
        have henough := hP.enough
        have htaken := hP.count 1024
        exact ⟨iff_of_true rfl ⟨hwithin, henough⟩, fun h => absurd rfl h, fun _ => by omega⟩
    | @stopped m s₁ _ hm hP hstop =>
        refine ⟨iff_of_false (by omega) fun ⟨hwithin, henough⟩ => ?_, fun _ => rfl,
          fun h => by omega⟩
        have hshort := hstop.short hP (by omega)
        have := missing_mono (s := s₀) (f := g) (k := 0) (m := m + 1)
          (n := s.blocksToWrite g count) (by omega)
        omega

/-- Thirteen blocks for a new file take fourteen. -/
theorem sfsFwrite_succeeds_new_file :
    ∃ s', sfsFwrite (fun _ => 0) (0 : Fin 300) (fun _ => 0) (13 * 1024)
        (formatted.createFile 0 (letter 65 (by decide))) = .ok (13 * 1024, s') ∧
      s'.freeBlocks + 14 = formatted.freeBlocks := by
  have h := formatted_fresh
  have hw := h.createFile_wellFormed (letter 65 (by decide))
  have hfdt := createFile_position formatted 0 (letter 65 (by decide))
  have hsize := createFile_size formatted 0 (letter 65 (by decide))
  have hfree : (formatted.createFile 0 (letter 65 (by decide))).freeBlocks = 1005 := by
    rw [← freeBelow_eq_freeBlocks, h.createFile_freeBelow]
  have hafter :
      (formatted.createFile 0 (letter 65 (by decide))).blocksAfter 0 (13 * 1024) = 13 := by
    rw [blocksAfter, hfdt, hsize]
    decide
  have hlack : (formatted.createFile 0 (letter 65 (by decide))).blocksLacking 0 13 = 14 := by
    rw [← missing_eq_blocksLacking, missing_of_no_blocks (h.createFile_pointer _ 0)]
    decide
  obtain ⟨ret, s', hwrite, hiff, -, htaken⟩ := @sfsFwrite_succeeds_iff _ 0 (fun _ => 0) (13 * 1024)
    hw.toIsolated (by omega) (by omega) (by omega)
    (by omega) (by omega) (by rw [strnlen_zeros]; omega) (fun _ => 0)
  rw [hafter, hlack, hfree] at hiff
  have hret : ret = 13 * 1024 := hiff.mpr ⟨by omega, by omega⟩
  have hleft := htaken hret
  rw [hafter, hlack, hfree] at hleft
  rw [hret] at hwrite
  refine ⟨s', hwrite, ?_⟩
  rw [← freeBelow_eq_freeBlocks formatted, h.freeBelow_all]
  exact hleft

end OsConcepts.Sfs
