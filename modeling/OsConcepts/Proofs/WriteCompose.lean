import OsConcepts.Proofs.WriteOne
import OsConcepts.Proofs.WriteResult

/-!
# Two writes and one

Every successful write leaves the descriptor at the end of the file, wherever
it was. So two writes in a row are the one write of both buffers only when the
first of them reaches the end: then the second is spliced in where the first
left off (`splice_splice`), else it is appended.
-/

namespace OsConcepts.Sfs

open OsConcepts

variable {s : Sfs} {f : Fin 300} {a b ab : Mem} {m n : Nat}

/-- Writing `m` bytes of `a` and then `n` of `b` leaves the file and the
descriptor as writing all of `ab` does: behind what was written. -/
def Composes (f : Fin 300) (a b ab : Mem) (m n : Nat) (s : Sfs) : Prop :=
  ∀ junk₁ junk₂ junk₃ s₁ s₂ t,
    sfsFwrite junk₁ (f : Nat) a m s = .ok (m, s₁) →
    sfsFwrite junk₂ (f : Nat) b n s₁ = .ok (n, s₂) →
    sfsFwrite junk₃ (f : Nat) ab (m + n : Nat) s = .ok ((m + n : Nat), t) →
    (s₂.iNodes f).size = (t.iNodes f).size ∧
      (∀ junk, readAll junk f s₂ = readAll junk f t) ∧
      s₂.openFDTCache f = s.openFDTCache f + m + n ∧ t.openFDTCache f = s.openFDTCache f + m + n

/-- Both writes of a pair, the second from the end of the file. -/
theorem written_twice {junk₁ junk₂ : Mem} {s₁ s₂ : Sfs} (hs : OwnsBlocks s f)
    (hle : s.openFDTCache f ≤ (s.iNodes f).size)
    (h₁ : sfsFwrite junk₁ (f : Nat) a m s = .ok (m, s₁))
    (h₂ : sfsFwrite junk₂ (f : Nat) b n s₁ = .ok (n, s₂)) :
    Written f a m s s₁ ∧ Written f b n s₁ s₂ := by
  have hw := sfsFwrite_written hs hle (Int.natCast_nonneg m) h₁
  exact ⟨hw, sfsFwrite_written hw.owns (by rw [hw.size, hw.position]) (Int.natCast_nonneg n) h₂⟩

/-- A write that ends inside the file leaves the descriptor too far. -/
theorem Composes.reaches_end {junk₁ junk₂ junk₃ : Mem} {s₁ s₂ t : Sfs} (hs : OwnsBlocks s f)
    (hle : s.openFDTCache f ≤ (s.iNodes f).size)
    (h₁ : sfsFwrite junk₁ (f : Nat) a m s = .ok (m, s₁))
    (h₂ : sfsFwrite junk₂ (f : Nat) b n s₁ = .ok (n, s₂))
    (h₃ : sfsFwrite junk₃ (f : Nat) ab (m + n : Nat) s = .ok ((m + n : Nat), t))
    (h : Composes f a b ab m n s) : (s.iNodes f).size ≤ s.openFDTCache f + m := by
  obtain ⟨hw₁, hw₂⟩ := written_twice hs hle h₁ h₂
  have hpos := (h _ _ _ _ _ _ h₁ h₂ h₃).2.2.1
  rw [hw₂.position, hw₁.size, hw₁.position] at hpos
  omega

/-- From the end of the file on, the second write continues the first. -/
theorem composes_of_reaches_end (hs : OwnsBlocks s f) (hb : Backed s f)
    (hopen : 0 ≤ s.openFDTCache f) (hle : s.openFDTCache f ≤ (s.iNodes f).size)
    (hab : ab.slice 0 (m + n) = a.slice 0 m ++ b.slice 0 n)
    (hend : (s.iNodes f).size ≤ s.openFDTCache f + m) : Composes f a b ab m n s := by
  intro junk₁ junk₂ junk₃ s₁ s₂ t h₁ h₂ h₃
  obtain ⟨hw₁, hw₂⟩ := written_twice hs hle h₁ h₂
  have hw := sfsFwrite_written hs hle (Int.natCast_nonneg (m + n)) h₃
  have hsize := hw.size
  have hpos := hw.position
  have hsize₂ := hw₂.size
  have hpos₂ := hw₂.position
  rw [hw₁.size, hw₁.position] at hsize₂ hpos₂
  refine ⟨by omega, fun junk => ?_, by omega, by omega⟩
  rw [readAll_eq hw₂.owns.range hw₂.backed (by omega),
    readAll_eq hw.owns.range hw.backed (by omega),
    hw₂.contents hw₁.backed, hw₁.contents hb, hw.contents hb, hw₁.position, Int.toNat_natCast,
    Int.toNat_natCast, Int.toNat_natCast, hab]
  have hlen : (s.openFDTCache f).toNat + (a.slice 0 m).length =
      (max (s.iNodes f).size (s.openFDTCache f + m)).toNat := by
    rw [Mem.length_slice]
    omega
  rw [← hlen, splice_splice (by rw [length_contents]; omega)]

/-- Two writes in a row are one only if the first reaches the end of the file,
and then they are, on a file that has its blocks. -/
theorem sfsFwrite_composes {junk₁ junk₂ junk₃ : Mem} {s₁ s₂ t : Sfs} (hs : OwnsBlocks s f)
    (hopen : 0 ≤ s.openFDTCache f) (hle : s.openFDTCache f ≤ (s.iNodes f).size)
    (hab : ab.slice 0 (m + n) = a.slice 0 m ++ b.slice 0 n)
    (h₁ : sfsFwrite junk₁ (f : Nat) a m s = .ok (m, s₁))
    (h₂ : sfsFwrite junk₂ (f : Nat) b n s₁ = .ok (n, s₂))
    (h₃ : sfsFwrite junk₃ (f : Nat) ab (m + n : Nat) s = .ok ((m + n : Nat), t)) :
    (Composes f a b ab m n s → (s.iNodes f).size ≤ s.openFDTCache f + m) ∧
      (Backed s f → (s.iNodes f).size ≤ s.openFDTCache f + m → Composes f a b ab m n s) :=
  ⟨fun h => h.reaches_end hs hle h₁ h₂ h₃,
    fun hb hend => composes_of_reaches_end hs hb hopen hle hab hend⟩

/-! ## On a new file -/

variable (junk : Mem) in
/-- Up to two blocks of zeros go through while six blocks are free. -/
theorem write_zeros (hs : Owned s) (hopen : 0 ≤ s.openFDTCache f)
    (hle : s.openFDTCache f ≤ (s.iNodes f).size) (hsize : (s.iNodes f).size ≤ 1024)
    (hn : n ≤ 2048) (hfree : 6 ≤ s.freeBelow 1024) :
    ∃ s', sfsFwrite junk (f : Nat) (fun _ => 0) n s = .ok (n, s') ∧ Owned s' ∧
      s.freeBelow 1024 ≤ s'.freeBelow 1024 + 6 ∧ Written f (fun _ => 0) n s s' := by
  have hblocks : s.blocksToWrite f n ≤ 3 := by
    rw [blocksToWrite_eq (by omega) hopen (by omega), blocksAfter]
    omega
  have hmissing := missing_le s f (s.blocksToWrite f n) 0
  obtain ⟨data, s₀, s₁, hwrite, hre, hP⟩ := sfsFwrite_of_enough junk (fun _ => 0)
    n hs (by omega) (by omega) hopen (by omega) (by omega)
    (by rw [strnlen_zeros]; omega) (by omega) (by omega)
  have hsame := finishWrite_sameBlocks (f := f) hP.owned (s.newFileSize f n)
  have hcount := hP.count 1024
  rw [hre.sameBlocks.freeBelow, hre.sameBlocks.missing] at hcount
  refine ⟨_, hwrite, hsame.owned hP.owned, ?_,
    sfsFwrite_written (hs.ownsBlocks f) hle (by omega) hwrite⟩
  rw [hsame.freeBelow]
  omega

/-- Two blocks written to a new file, one by one or together. -/
theorem sfsFwrite_composes_new_file :
    Composes 0 (fun _ => 0) (fun _ => 0) (fun _ => 0) 1024 1024
      (formatted.createFile 0 (letter 65 (by decide))) := by
  have h := formatted_fresh
  have hw := h.createFile_wellFormed (letter 65 (by decide))
  have hsize := createFile_size formatted 0 (letter 65 (by decide))
  have hfdt := createFile_position formatted 0 (letter 65 (by decide))
  have hfree := h.createFile_freeBelow (letter 65 (by decide))
  generalize formatted.createFile 0 (letter 65 (by decide)) = s at *
  obtain ⟨s₁, h₁, howned₁, hfree₁, hw₁⟩ := write_zeros (fun _ => 0) (f := 0) (n := 1024)
    hw.toOwned (by omega) (by omega) (by omega) (by omega) (by omega)
  have hsize₁ := hw₁.size
  have hpos₁ := hw₁.position
  obtain ⟨s₂, h₂, -⟩ := write_zeros (fun _ => 0) (f := 0) (n := 1024) howned₁
    (by omega) (by omega) (by omega) (by omega) (by omega)
  obtain ⟨t, h₃, -⟩ := write_zeros (fun _ => 0) (f := 0) (n := 1024 + 1024) hw.toOwned
    (by omega) (by omega) (by omega) (by omega) (by omega)
  have hab : ∀ k : Nat, Mem.slice (fun _ => 0) 0 (k + k) =
      Mem.slice (fun _ => 0) 0 k ++ Mem.slice (fun _ => 0) 0 k := by
    intro k
    rw [Mem.slice_add]
    exact congrArg _ (Mem.slice_congr fun _ _ => rfl)
  exact (sfsFwrite_composes (hw.toOwned.ownsBlocks 0) (by omega) (by omega)
    (hab 1024) h₁ h₂ h₃).2 (backed_of_size_zero hsize) (by omega)

/-- A block is written to a new file and the descriptor put back to its start.
Two bytes written there one by one end up in two places. -/
theorem writes_do_not_compose :
    ∃ s₁ s, sfsFwrite (fun _ => 0) ((0 : Fin 300) : Nat) (fun _ => 0) 1024
        (formatted.createFile 0 (letter 65 (by decide))) = .ok (1024, s₁) ∧
      sfsFseek ((0 : Fin 300) : Nat) 0 s₁ = .ok (0, s) ∧ OwnsBlocks s 0 ∧ Backed s 0 ∧
      ¬ Composes 0 (fun _ => 0) (fun _ => 0) (fun _ => 0) 1 1 s := by
  have h := formatted_fresh
  have hw := h.createFile_wellFormed (letter 65 (by decide))
  have hsize := createFile_size formatted 0 (letter 65 (by decide))
  have hfdt := createFile_position formatted 0 (letter 65 (by decide))
  have hfree := h.createFile_freeBelow (letter 65 (by decide))
  generalize formatted.createFile 0 (letter 65 (by decide)) = r at *
  obtain ⟨s₁, h₁, howned₁, hfree₁, hw₁⟩ := write_zeros (fun _ => 0) (f := 0) (n := 1024)
    hw.toOwned (by omega) (by omega) (by omega) (by omega) (by omega)
  have hsize₁ := hw₁.size
  have hpos₁ := hw₁.position
  have hmove : Rereads 0 s₁ (s₁.setReadWritePointer 0 0) := .move 0 s₁ 0
  have howned := hmove.sameBlocks.owned howned₁
  have hseek := sfsFseek_eq (f := 0) (s := s₁) (Int.le_refl 0) (by omega) (by omega)
  have hsize₂ : ((s₁.setReadWritePointer 0 0).iNodes 0).size = (s₁.iNodes 0).size := by
    rw [hmove.iNodes]
  have hpos₂ : (s₁.setReadWritePointer 0 0).openFDTCache 0 = 0 := by simp
  have hfree₂ := hmove.sameBlocks.freeBelow 1024
  refine ⟨s₁, _, h₁, hseek, howned.ownsBlocks 0, hmove.backed hw₁.backed, ?_⟩
  intro hcomp
  generalize s₁.setReadWritePointer 0 0 = s at *
  obtain ⟨t₁, ht₁, howned₂, hfree₃, hw₂⟩ := write_zeros (fun _ => 0) (f := 0) (n := 1)
    howned (by omega) (by omega) (by omega) (by omega) (by omega)
  have hsize₃ := hw₂.size
  have hpos₃ := hw₂.position
  obtain ⟨t₂, ht₂, -⟩ := write_zeros (fun _ => 0) (f := 0) (n := 1) howned₂
    (by omega) (by omega) (by omega) (by omega) (by omega)
  obtain ⟨t, ht, -⟩ := write_zeros (fun _ => 0) (f := 0) (n := 1 + 1) howned
    (by omega) (by omega) (by omega) (by omega) (by omega)
  have := hcomp.reaches_end (howned.ownsBlocks 0) (by omega) ht₁ ht₂ ht
  omega

end OsConcepts.Sfs
