import Mathlib.Data.List.Basic

/-!
# One journal for many

Several parties write to one journal, each entry under the key of its writer.
`Journal.of` is what one of them wrote, in order. A new entry is the last of its
writer and changes nothing for the others, and an entry once written keeps its
place.
-/

namespace OsConcepts.Journal

variable {κ α : Type*} [DecidableEq κ]

/-- The entries under one key, in order. -/
def of (l : List (κ × α)) (k : κ) : List α :=
  l.filterMap fun x => if x.1 = k then some x.2 else none

theorem of_append (l l' : List (κ × α)) (k : κ) : of (l ++ l') k = of l k ++ of l' k :=
  List.filterMap_append

theorem of_append_self (l : List (κ × α)) (k : κ) (a : α) :
    of (l ++ [(k, a)]) k = of l k ++ [a] := by
  rw [of_append]
  simp [of]

theorem of_append_ne (l : List (κ × α)) {k k' : κ} (a : α) (h : k' ≠ k) :
    of (l ++ [(k', a)]) k = of l k := by
  rw [of_append]
  simp [of, h]

/-- What has been written stays where it is. -/
theorem getElem?_of_append {l : List (κ × α)} {k : κ} {n : Nat} {a : α}
    (h : (of l k)[n]? = some a) (l' : List (κ × α)) : (of (l ++ l') k)[n]? = some a := by
  rw [of_append, List.getElem?_append_left]
  · exact h
  · exact (List.getElem?_eq_some_iff.mp h).1

end OsConcepts.Journal
