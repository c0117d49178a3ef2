import OsConcepts.Lib.System

/-!
# One system refines another

A system with much detail refines one with little if what can be seen of its
runs can be seen of a run of the other. `Simulates` is the way to show it: a
relation between the states that the starts enter and the steps keep, each step
of the first system being one of the second under the label `obs` gives it.
-/

namespace OsConcepts

namespace System

variable {σ τ ι κ : Type*} {C : System σ ι} {A : System τ κ} {obs : ι → κ} {R : σ → τ → Prop}

/-- The steps of `C` are steps of `A` under `R`. -/
structure Simulates (C : System σ ι) (A : System τ κ) (obs : ι → κ) (R : σ → τ → Prop) :
    Prop where
  init : ∀ s, C.init s → ∃ t, A.init t ∧ R s t
  step : ∀ s t a s', R s t → C.step s a s' → ∃ t', A.step t (obs a) t' ∧ R s' t'

/-- A run is simulated label by label. -/
theorem Simulates.run (h : C.Simulates A obs R) {tr : List ι} {s : σ} (hr : C.Run tr s) :
    ∃ t, A.Run (tr.map obs) t ∧ R s t := by
  induction hr with
  | start hinit =>
      obtain ⟨t, ht, hR⟩ := h.init _ hinit
      exact ⟨t, .start ht, hR⟩
  | step _ hs ih =>
      obtain ⟨t, ht, hR⟩ := ih
      obtain ⟨t', hstep, hR'⟩ := h.step _ _ _ _ hR hs
      exact ⟨t', ht.step hstep, hR'⟩

theorem Simulates.reachable (h : C.Simulates A obs R) {s : σ} (hr : C.Reachable s) :
    ∃ t, A.Reachable t ∧ R s t := by
  obtain ⟨tr, hr⟩ := hr
  obtain ⟨t, ht, hR⟩ := h.run hr
  exact ⟨t, ⟨_, ht⟩, hR⟩

end System

end OsConcepts
