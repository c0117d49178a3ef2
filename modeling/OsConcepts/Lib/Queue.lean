import OsConcepts.Lib.System

/-!
# First come, first served

A system with a line of waiting ones, told from its states, and steps that show
who is let in. It is `Orderly` if only the first in line is let in and only the
end of the line is joined. What has been let in and the line behind it are then
the line of before and those who have joined (`Orderly.stretch`), so from one's
joining to one's turn exactly those in front are let in (`Orderly.turn`).
-/

namespace OsConcepts

namespace System

variable {σ ι α : Type*}

/-- Who is let in stood first in line, and who joins stands last. -/
def Orderly (S : System σ ι) (line : σ → List α) (shows : σ → ι → List α) : Prop :=
  ∀ s a s', S.Reachable s → S.step s a s' → ∃ joined, shows s a ++ line s' = line s ++ joined

variable {S : System σ ι} {line : σ → List α} {shows : σ → ι → List α}

theorem Orderly.stretch (h : S.Orderly line shows) {s s' : σ} {xs : List α}
    (hs : S.Reachable s) (hst : S.Stretch shows s xs s') :
    ∃ joined, xs ++ line s' = line s ++ joined := by
  induction hst with
  | refl => exact ⟨[], (List.append_nil _).symm⟩
  | @step xs s' s'' a hst hstep ih =>
      obtain ⟨joined, hjoined⟩ := ih
      obtain ⟨last, hlast⟩ := h s' a s'' (hs.stretch hst) hstep
      refine ⟨joined ++ last, ?_⟩
      calc xs ++ shows s' a ++ line s''
          = xs ++ (line s' ++ last) := by rw [List.append_assoc, hlast]
        _ = line s ++ (joined ++ last) := by
            rw [← List.append_assoc, hjoined, List.append_assoc]

/-- Two lists are the same up to the first `x`. -/
theorem eq_of_append_cons {xs ys as bs : List α} {x : α} (hxs : x ∉ xs) (hys : x ∉ ys)
    (h : xs ++ x :: as = ys ++ x :: bs) : xs = ys := by
  have hnil : ∀ {zs cs ds : List α}, x ∉ zs → x :: cs = zs ++ x :: ds → zs = [] := by
    intro zs cs ds hzs heq
    cases zs with
    | nil => rfl
    | cons z zs => exact absurd ((List.cons.inj heq).1 ▸ List.mem_cons_self) hzs
  rcases List.append_eq_append_iff.mp h with ⟨zs, rfl, heq⟩ | ⟨zs, rfl, heq⟩
  · rw [hnil (fun hz => hys (List.mem_append_right _ hz)) heq, List.append_nil]
  · rw [hnil (fun hz => hxs (List.mem_append_right _ hz)) heq, List.append_nil]

/-- When `x` comes first for the first time, those let in are the ones that stood
in front. -/
theorem Orderly.turn (h : S.Orderly line shows) {s s' : σ} {xs ahead : List α} {x : α}
    (hs : S.Reachable s) (hst : S.Stretch shows s xs s') (hline : line s = ahead ++ [x])
    (hahead : x ∉ ahead) (hxs : x ∉ xs) (hx : (line s').head? = some x) : xs = ahead := by
  obtain ⟨joined, hjoined⟩ := h.stretch hs hst
  obtain ⟨rest, hrest⟩ := List.head?_eq_some_iff.mp hx
  rw [hrest, hline, List.append_assoc, List.singleton_append] at hjoined
  exact eq_of_append_cons hxs hahead hjoined

section Place

variable [DecidableEq α] {x y : α} {before after joined : List α}

/-- Who stands in line keeps the place while no one is let in. -/
theorem place_kept (h : [] ++ after = before ++ joined) (hx : x ∈ before) :
    x ∈ after ∧ after.idxOf x = before.idxOf x := by
  obtain rfl : after = before ++ joined := h
  exact ⟨List.mem_append_left _ hx, List.idxOf_append.trans (if_pos hx)⟩

/-- When someone else is let in, the place is one nearer. -/
theorem place_nearer (h : [y] ++ after = before ++ joined) (hx : x ∈ before) (hne : y ≠ x) :
    x ∈ after ∧ after.idxOf x + 1 = before.idxOf x := by
  cases before with
  | nil => cases hx
  | cons z zs =>
      obtain ⟨rfl, rfl⟩ := List.cons.inj h
      have hmem : x ∈ zs := (List.mem_cons.mp hx).resolve_left (Ne.symm hne)
      refine ⟨List.mem_append_left _ hmem, ?_⟩
      rw [List.idxOf_cons, beq_false_of_ne hne, cond_false]
      exact congrArg (· + 1) (List.idxOf_append.trans (if_pos hmem))

end Place

end System

end OsConcepts
