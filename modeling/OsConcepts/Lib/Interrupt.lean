import Mathlib.Data.List.Basic

/-!
# Stopping between two writes

A storage changes by writes, one after the other, and whoever issues them can be
stopped after any of them. `Throughout put P d ws` says that `P` holds wherever
the sequence `ws` is cut: before its first write, between two, after its last.
A sequence in two parts is cut in the one or in the other.
-/

namespace OsConcepts.Interrupt

variable {σ ω : Type*} {put : σ → ω → σ} {P : σ → Prop} {d : σ} {ws ws' : List ω}

/-- `P` holds of the storage after each number of the writes. -/
def Throughout (put : σ → ω → σ) (P : σ → Prop) (d : σ) (ws : List ω) : Prop :=
  ∀ n, P ((ws.take n).foldl put d)

theorem Throughout.last (h : Throughout put P d ws) : P (ws.foldl put d) := by
  have hall := h ws.length
  rwa [List.take_length] at hall

theorem throughout_nil (h : P d) : Throughout put P d [] := by
  intro n
  rwa [List.take_nil, List.foldl_nil]

theorem Throughout.append (h : Throughout put P d ws)
    (h' : Throughout put P (ws.foldl put d) ws') : Throughout put P d (ws ++ ws') := by
  intro n
  rw [List.take_append, List.foldl_append]
  rcases Nat.le_total n ws.length with hle | hge
  · rw [Nat.sub_eq_zero_of_le hle, List.take_zero, List.foldl_nil]
    exact h n
  · rw [List.take_of_length_le hge]
    exact h' (n - ws.length)

theorem throughout_singleton {w : ω} (h : P d) (h' : P (put d w)) : Throughout put P d [w] := by
  intro n
  cases n with
  | zero => exact h
  | succ n =>
      rw [List.take_succ_cons, List.take_nil]
      exact h'

end OsConcepts.Interrupt
