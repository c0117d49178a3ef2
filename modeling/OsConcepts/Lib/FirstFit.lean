import Mathlib.Data.Fin.Basic
import Mathlib.Data.Fintype.Card

/-!
# First fit

An allocator over a row of cells takes the first free one. How many are free
below a bound is then all one needs to know about the row to tell where the next
allocations go: each takes one from the count, and none lands at or past the
bound before the count is used up.
-/

namespace OsConcepts.FirstFit

variable {n : Nat}

/-- The number of free cells below `k`. -/
def freeBelow (free : Fin n → Bool) (k : Nat) : Nat :=
  (Finset.univ.filter fun i : Fin n => i.val < k ∧ free i = true).card

theorem freeBelow_eq_zero {free : Fin n → Bool} {k : Nat} :
    freeBelow free k = 0 ↔ ∀ i : Fin n, i.val < k → free i = false := by
  simp only [freeBelow, Finset.card_eq_zero, Finset.filter_eq_empty_iff, Finset.mem_univ,
    true_implies, not_and, Bool.not_eq_true]

theorem freeBelow_mono {free : Fin n → Bool} {k k' : Nat} (h : k ≤ k') :
    freeBelow free k ≤ freeBelow free k' := by
  refine Finset.card_le_card ?_
  intro i
  simp only [Finset.mem_filter, Finset.mem_univ, true_and]
  exact fun ⟨hi, hf⟩ => ⟨by omega, hf⟩

theorem freeBelow_pos {free : Fin n → Bool} {i : Fin n} {k : Nat} (hi : i.val < k)
    (hf : free i = true) : 0 < freeBelow free k := by
  refine Nat.pos_of_ne_zero ?_
  intro h
  have := freeBelow_eq_zero.mp h i hi
  rw [hf] at this
  cases this

/-- A bound that counts every free cell lies above them all. -/
theorem lt_of_counted {free : Fin n → Bool} {i : Fin n} {k : Nat}
    (hk : freeBelow free n ≤ freeBelow free k) (hf : free i = true) : i.val < k := by
  by_contra hge
  have hsub : (Finset.univ.filter fun j : Fin n => j.val < k ∧ free j = true) ⊂
      Finset.univ.filter fun j : Fin n => j.val < n ∧ free j = true := by
    refine Finset.ssubset_iff_subset_ne.mpr ⟨fun j => ?_, fun heq => ?_⟩
    · simp only [Finset.mem_filter, Finset.mem_univ, true_and]
      exact fun hj => ⟨j.isLt, hj.2⟩
    · have hi : i ∈ Finset.univ.filter fun j : Fin n => j.val < k ∧ free j = true := by
        rw [heq]
        simp [hf]
      simp only [Finset.mem_filter] at hi
      exact hge hi.2.1
  have := Finset.card_lt_card hsub
  unfold freeBelow at hk
  omega

theorem freeBelow_eq_of_none_free {free : Fin n → Bool} {k k' : Nat} (h : k ≤ k')
    (hno : ∀ i : Fin n, k ≤ i.val → i.val < k' → free i = false) :
    freeBelow free k' = freeBelow free k := by
  unfold freeBelow
  congr 1
  ext i
  simp only [Finset.mem_filter, Finset.mem_univ, true_and]
  refine ⟨fun ⟨hi, hf⟩ => ⟨?_, hf⟩, fun ⟨hi, hf⟩ => ⟨by omega, hf⟩⟩
  by_contra hge
  rw [hno i (by omega) hi] at hf
  cases hf

theorem freeBelow_succ (free : Fin n → Bool) (i : Fin n) :
    freeBelow free (i + 1) = freeBelow free i + if free i then 1 else 0 := by
  have hother : ∀ j : Fin n, j.val < i.val + 1 ↔ j = i ∨ j.val < i.val := by
    intro j
    rw [Fin.ext_iff]
    omega
  unfold freeBelow
  simp only [hother, or_and_right]
  by_cases hi : free i = true
  · rw [if_pos hi, Finset.filter_or, Finset.card_union_of_disjoint, Nat.add_comm]
    · congr 1
      rw [Finset.card_eq_one]
      refine ⟨i, ?_⟩
      ext j
      simp only [Finset.mem_filter, Finset.mem_univ, true_and, Finset.mem_singleton]
      exact ⟨fun h => h.1, fun h => ⟨h, h ▸ hi⟩⟩
    · refine Finset.disjoint_left.mpr ?_
      intro j hj hj'
      simp only [Finset.mem_filter] at hj hj'
      rw [hj.2.1] at hj'
      omega
  · rw [if_neg hi, Nat.add_zero]
    congr 1
    ext j
    simp only [Finset.mem_filter, Finset.mem_univ, true_and]
    exact ⟨fun h => h.resolve_left fun h' => hi (h'.1 ▸ h'.2), Or.inr⟩

/-- The first free cell exists when any is free, and lies below every bound
that has one below it. -/
theorem find_of_freeBelow_pos {free : Fin n → Bool} {k : Nat} (h : 0 < freeBelow free k) :
    ∃ i : Fin n, Fin.find? free = some i ∧ i.val < k := by
  have hex : ∃ j : Fin n, j.val < k ∧ free j = true := by
    by_contra hno
    push Not at hno
    have := freeBelow_eq_zero.mpr fun i hi => by simpa using hno i hi
    omega
  obtain ⟨j, hj, hfj⟩ := hex
  obtain ⟨i, hi⟩ := Option.isSome_iff_exists.mp (Fin.isSome_find?_iff.mpr ⟨j, hfj⟩)
  refine ⟨i, hi, ?_⟩
  by_contra hge
  have := (Fin.find?_eq_some_iff.mp hi).2 j (by omega)
  rw [hfj] at this
  cases this

theorem find_eq_none_iff {free : Fin n → Bool} :
    Fin.find? free = none ↔ freeBelow free n = 0 := by
  rw [Fin.find?_eq_none_iff, freeBelow_eq_zero]
  exact ⟨fun h i _ => h i, fun h i => h i i.isLt⟩

/-- Taking the first free cell takes one from every count that is not used up. -/
theorem freeBelow_take {free free' : Fin n → Bool} {i : Fin n} {k : Nat}
    (hi : Fin.find? free = some i) (hself : free' i = false)
    (hother : ∀ j, j ≠ i → free' j = free j) :
    freeBelow free' k = freeBelow free k - 1 := by
  obtain ⟨hfree, hfirst⟩ := Fin.find?_eq_some_iff.mp hi
  by_cases hk : i.val < k
  · have herase : (Finset.univ.filter fun j : Fin n => j.val < k ∧ free' j = true) =
        (Finset.univ.filter fun j : Fin n => j.val < k ∧ free j = true).erase i := by
      ext j
      simp only [Finset.mem_erase, Finset.mem_filter, Finset.mem_univ, true_and]
      by_cases hj : j = i
      · subst hj; simp [hself]
      · simp [hj, hother j hj]
    unfold freeBelow
    rw [herase, Finset.card_erase_of_mem (by simp [hk, hfree])]
  · have hzero : freeBelow free k = 0 :=
      freeBelow_eq_zero.mpr fun j hj => hfirst j (by omega)
    rw [hzero, freeBelow_eq_zero.mpr]
    intro j hj
    rw [hother j (by rintro rfl; exact hk hj)]
    exact hfirst j (by omega)

/-- The free cells from `k` on. -/
def freeFrom (free : Fin n → Bool) (k : Nat) : Finset (Fin n) :=
  Finset.univ.filter fun i : Fin n => k ≤ i.val ∧ free i = true

theorem freeBelow_add_freeFrom (free : Fin n → Bool) (k : Nat) :
    freeBelow free k + (freeFrom free k).card = freeBelow free n := by
  unfold freeBelow freeFrom
  rw [← Finset.card_union_of_disjoint]
  · congr 1
    ext i
    have hi := i.isLt
    simp only [Finset.mem_union, Finset.mem_filter, Finset.mem_univ, true_and]
    constructor
    · rintro (⟨-, h⟩ | ⟨-, h⟩) <;> exact ⟨hi, h⟩
    · rintro ⟨-, h⟩
      rcases Nat.lt_or_ge i.val k with hk | hk
      · exact Or.inl ⟨hk, h⟩
      · exact Or.inr ⟨hk, h⟩
  · refine Finset.disjoint_left.mpr ?_
    intro i hi hi'
    simp only [Finset.mem_filter] at hi hi'
    omega

/-- Allocations that are all covered by the free cells below `k` leave the ones
from `k` on free. -/
theorem free_of_covered {free free' : Fin n → Bool} {k c : Nat}
    (hsub : ∀ i, free' i = true → free i = true) (hc : c ≤ freeBelow free k)
    (hk : freeBelow free' k = freeBelow free k - c)
    (hn : freeBelow free' n = freeBelow free n - c) {i : Fin n} (hi : k ≤ i.val)
    (hf : free i = true) : free' i = true := by
  have hcard : (freeFrom free k).card ≤ (freeFrom free' k).card := by
    have h := freeBelow_add_freeFrom free k
    have h' := freeBelow_add_freeFrom free' k
    omega
  have hsubset : freeFrom free' k ⊆ freeFrom free k := by
    intro j hj
    simp only [freeFrom, Finset.mem_filter, Finset.mem_univ, true_and] at hj ⊢
    exact ⟨hj.1, hsub j hj.2⟩
  have heq := Finset.eq_of_subset_of_card_le hsubset hcard
  have hmem : i ∈ freeFrom free' k := by
    rw [heq]
    simp [freeFrom, hi, hf]
  simp only [freeFrom, Finset.mem_filter] at hmem
  exact hmem.2.2

end OsConcepts.FirstFit
