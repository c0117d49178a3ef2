import Mathlib.Data.List.Basic

/-!
# Writing over the middle of a sequence

What a write at position `p` makes of a file: the part before `p`, the new
elements, and what is left of the old part behind them.
-/

namespace OsConcepts

variable {α : Type*} {old new l : List α} {p : Nat}

/-- `old` with `new` written over it at position `p`. -/
def splice (old : List α) (p : Nat) (new : List α) : List α :=
  old.take p ++ new ++ old.drop (p + new.length)

theorem length_splice (hp : p ≤ old.length) :
    (splice old p new).length = max old.length (p + new.length) := by
  simp only [splice, List.length_append, List.length_take, List.length_drop]
  omega

theorem getElem?_splice (hp : p ≤ old.length) (i : Nat) :
    (splice old p new)[i]? =
      if p ≤ i ∧ i < p + new.length then new[i - p]? else old[i]? := by
  simp only [splice, List.append_assoc]
  by_cases hi : i < p
  · rw [if_neg (by omega), List.getElem?_append_left (by rw [List.length_take]; omega),
      List.getElem?_take_of_lt hi]
  · rw [List.getElem?_append_right (by rw [List.length_take]; omega), List.length_take,
      Nat.min_eq_left hp]
    by_cases hi' : i < p + new.length
    · rw [if_pos ⟨by omega, hi'⟩, List.getElem?_append_left (by omega)]
    · rw [if_neg (by omega), List.getElem?_append_right (by omega), List.getElem?_drop]
      congr 1
      omega

/-- What has been written over is what was written. -/
theorem take_drop_splice (hp : p ≤ old.length) :
    ((splice old p new).drop p).take new.length = new := by
  have hlen : (old.take p).length = p := List.length_take_of_le hp
  rw [splice, List.append_assoc, List.drop_left' hlen, List.take_left' rfl]

/-- A sequence is the splice when it has the new elements in their place and
the old ones elsewhere. -/
theorem eq_splice (hp : p ≤ old.length) (hl : l.length = max old.length (p + new.length))
    (hnew : ∀ i, p ≤ i → i < p + new.length → l[i]? = new[i - p]?)
    (hold : ∀ i, i < p ∨ p + new.length ≤ i → i < old.length → l[i]? = old[i]?) :
    l = splice old p new := by
  refine List.ext_getElem? ?_
  intro i
  rw [getElem?_splice hp]
  split
  · next h => exact hnew i h.1 h.2
  · next h =>
      by_cases hi : i < old.length
      · exact hold i (by omega) hi
      · rw [List.getElem?_eq_none (by omega), List.getElem?_eq_none (by omega)]

/-- Splicing in two pieces one after the other splices in both. -/
theorem splice_splice {new' : List α} (hp : p ≤ old.length) :
    splice (splice old p new) (p + new.length) new' = splice old p (new ++ new') := by
  have hlen : (splice old p new).length = max old.length (p + new.length) := length_splice hp
  refine eq_splice hp ?_ (fun i hi hi' => ?_) fun i hi hi' => ?_
  · rw [length_splice (by omega), hlen, List.length_append]
    omega
  · rw [List.length_append] at hi'
    rw [getElem?_splice (by omega)]
    split
    · next h =>
        rw [List.getElem?_append_right (by omega), Nat.sub_add_eq]
    · next h =>
        rw [getElem?_splice hp, if_pos ⟨hi, by omega⟩, List.getElem?_append_left (by omega)]
  · rw [List.length_append] at hi
    rw [getElem?_splice (by omega), if_neg (by omega), getElem?_splice hp, if_neg (by omega)]

end OsConcepts
