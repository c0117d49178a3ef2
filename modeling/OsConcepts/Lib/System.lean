import Mathlib.Init

/-!
# Runs of a labelled transition system

Everything said here about a program that is called over and over, or about
threads that interleave, is said of a `System`: where it may start and which
labelled steps it may take. A `Run` keeps the labels it went through, latest
first, so a property may speak about the history and not only about the state.

Two rules do all the work later. `Run.induction` turns a step lemma into a run
lemma. `guard` restricts a system to the steps that meet a condition, which is
how "in every run whose steps all meet the condition" is spelled; a guarded run
is a run, so an invariant of the whole system is an invariant of the guarded
one.
-/

namespace OsConcepts

/-- Where runs start and what one labelled step may do. -/
structure System (σ : Type*) (ι : Type*) where
  init : σ → Prop
  step : σ → ι → σ → Prop

namespace System

variable {σ ι : Type*} {S : System σ ι}

/-- A finite run: its labels, latest first, and the state it has reached. -/
inductive Run (S : System σ ι) : List ι → σ → Prop
  | start {s : σ} : S.init s → Run S [] s
  | step {tr : List ι} {s s' : σ} {a : ι} :
      Run S tr s → S.step s a s' → Run S (a :: tr) s'

/-- The states some run ends in. -/
def Reachable (S : System σ ι) (s : σ) : Prop := ∃ tr, S.Run tr s

theorem Reachable.start {s : σ} (h : S.init s) : S.Reachable s :=
  ⟨[], .start h⟩

theorem Reachable.step {s s' : σ} {a : ι} (h : S.Reachable s)
    (hs : S.step s a s') : S.Reachable s' := by
  obtain ⟨tr, hr⟩ := h
  exact ⟨a :: tr, .step hr hs⟩

/-- A property of history and state that the start has and every step keeps
holds along every run. -/
theorem Run.induction {I : List ι → σ → Prop}
    (hinit : ∀ s, S.init s → I [] s)
    (hstep : ∀ tr s a s', I tr s → S.step s a s' → I (a :: tr) s') :
    ∀ {tr : List ι} {s : σ}, S.Run tr s → I tr s := by
  intro tr s h
  induction h with
  | start h => exact hinit _ h
  | step _ hs ih => exact hstep _ _ _ _ ih hs

/-- The same for a property of the state alone. -/
theorem Reachable.invariant {I : σ → Prop} (hinit : ∀ s, S.init s → I s)
    (hstep : ∀ s a s', I s → S.step s a s' → I s') {s : σ}
    (h : S.Reachable s) : I s := by
  obtain ⟨tr, hr⟩ := h
  exact Run.induction (I := fun _ s => I s) hinit
    (fun _ s a s' hi hs => hstep s a s' hi hs) hr

/-- The system with only those steps that meet a condition on the state they
leave and on their label. -/
def guard (S : System σ ι) (ok : σ → ι → Prop) : System σ ι where
  init := S.init
  step s a s' := ok s a ∧ S.step s a s'

theorem Run.of_guard {ok : σ → ι → Prop} {tr : List ι} {s : σ}
    (h : (S.guard ok).Run tr s) : S.Run tr s := by
  induction h with
  | start h => exact .start h
  | step _ hs ih => exact .step ih hs.2

/-- A stretch of a run from one state to another, with what `shows` tells of its
steps, oldest first. -/
inductive Stretch {α : Type*} (S : System σ ι) (shows : σ → ι → List α) (s : σ) :
    List α → σ → Prop
  | refl : Stretch S shows s [] s
  | step {xs : List α} {s' s'' : σ} {a : ι} :
      Stretch S shows s xs s' → S.step s' a s'' → Stretch S shows s (xs ++ shows s' a) s''

section

variable {α : Type*} {shows : σ → ι → List α}

theorem Reachable.stretch {xs : List α} {s s' : σ} (h : S.Reachable s)
    (hst : S.Stretch shows s xs s') : S.Reachable s' := by
  induction hst with
  | refl => exact h
  | step _ hs ih => exact ih.step hs

theorem Stretch.cons {xs : List α} {s s' s'' : σ} {a : ι} (hs : S.step s a s')
    (h : S.Stretch shows s' xs s'') : S.Stretch shows s (shows s a ++ xs) s'' := by
  induction h with
  | refl =>
      rw [List.append_nil]
      exact .step .refl hs
  | step _ hlast ih =>
      rw [← List.append_assoc]
      exact ih.step hlast

end

/-- A list of labels played through by a step function. -/
def play (next : σ → ι → Option σ) : List ι → σ → Option σ
  | [], s => some s
  | a :: as, s => (next s a).bind (play next as)

/-- Where the steps of the function are steps of the system, playing leads to a
reachable state. -/
theorem Reachable.play {next : σ → ι → Option σ}
    (hnext : ∀ s a s', next s a = some s' → S.step s a s') :
    ∀ {as : List ι} {s s' : σ}, S.Reachable s → System.play next as s = some s' →
      S.Reachable s' := by
  intro as
  induction as with
  | nil =>
      intro s s' hr h
      cases h
      exact hr
  | cons a as ih =>
      intro s s' hr h
      obtain ⟨t, ht, h⟩ := Option.bind_eq_some_iff.mp h
      exact ih (hr.step (hnext s a t ht)) h

/-- The same with the labels of the run. -/
theorem Run.play {next : σ → ι → Option σ} (hnext : ∀ s a s', next s a = some s' → S.step s a s') :
    ∀ {as tr : List ι} {s s' : σ}, S.Run tr s → System.play next as s = some s' →
      S.Run (as.reverse ++ tr) s' := by
  intro as
  induction as with
  | nil =>
      intro tr s s' hr h
      cases h
      exact hr
  | cons a as ih =>
      intro tr s s' hr h
      obtain ⟨t, ht, h⟩ := Option.bind_eq_some_iff.mp h
      rw [List.reverse_cons, List.append_assoc]
      exact ih (hr.step (hnext s a t ht)) h

/-- What the steps of a list of labels show. -/
def shown {α : Type*} (next : σ → ι → Option σ) (shows : σ → ι → List α) : List ι → σ → List α
  | [], _ => []
  | a :: as, s => shows s a ++ ((next s a).map (shown next shows as)).getD []

theorem Stretch.play {α : Type*} {shows : σ → ι → List α} {next : σ → ι → Option σ}
    (hnext : ∀ s a s', next s a = some s' → S.step s a s') :
    ∀ {as : List ι} {s s' : σ}, System.play next as s = some s' →
      S.Stretch shows s (shown next shows as s) s' := by
  intro as
  induction as with
  | nil =>
      intro s s' h
      cases h
      exact .refl
  | cons a as ih =>
      intro s s' h
      obtain ⟨t, ht, h⟩ := Option.bind_eq_some_iff.mp h
      rw [shown, ht, Option.map_some, Option.getD_some]
      exact .cons (hnext s a t ht) (ih h)

/-- The step function that refuses the steps that do not meet a condition. -/
def checked (next : σ → ι → Option σ) (ok : σ → ι → Prop) [∀ s, DecidablePred (ok s)]
    (s : σ) (a : ι) : Option σ :=
  if ok s a then next s a else none

/-- Played with the check, the steps are steps of the guarded system. -/
theorem guard_of_checked {next : σ → ι → Option σ} {ok : σ → ι → Prop}
    [∀ s, DecidablePred (ok s)] (hnext : ∀ s a s', next s a = some s' → S.step s a s')
    (s : σ) (a : ι) (s' : σ) (h : checked next ok s a = some s') : (S.guard ok).step s a s' := by
  unfold checked at h
  split at h
  · next hok => exact ⟨hok, hnext s a s' h⟩
  · cases h

end System

end OsConcepts
