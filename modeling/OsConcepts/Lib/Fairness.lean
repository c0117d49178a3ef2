import Mathlib.Data.Nat.Init
import OsConcepts.Lib.System

/-!
# What must happen

A `System` says what may happen; that something does happen takes a whole
`Behavior`, which goes on for ever, and the promise that no kind of step which
stays possible is passed over for ever (`Fair`). A behavior may stand still, so a
system that has stopped has behaviors too.

One rule does all the work. `P` leads to `Q` when a rank drops: in every state of
`P` some kind of step is possible that lowers the rank or reaches `Q`, and no other
step raises the rank or takes the possibility away (`LeadsTo.of_rank`).
-/

namespace OsConcepts

namespace System

variable {σ ι : Type*}

/-- A run that goes on for ever. Where there is no label, nothing happens. -/
structure Behavior (S : System σ ι) where
  state : Nat → σ
  label : Nat → Option ι
  init : S.init (state 0)
  still : ∀ n, label n = none → state (n + 1) = state n
  step : ∀ n a, label n = some a → S.step (state n) a (state (n + 1))

variable {S : System σ ι} {P Q R : σ → Prop}

namespace Behavior

variable (r : S.Behavior)

theorem reachable (n : Nat) : S.Reachable (r.state n) := by
  induction n with
  | zero => exact .start r.init
  | succ n ih =>
      cases hlabel : r.label n with
      | none => exact r.still n hlabel ▸ ih
      | some a => exact ih.step (r.step n a hlabel)

/-- A behavior of a guarded system as one of the system. -/
def ofGuard {ok : σ → ι → Prop} (r : (S.guard ok).Behavior) : S.Behavior where
  state := r.state
  label := r.label
  init := r.init
  still := r.still
  step n a h := (r.step n a h).2

/-- A kind of step that stays possible is taken again and again. -/
def Fair (able : σ → Prop) (kind : ι → Prop) : Prop :=
  ∀ n, ∃ m, n ≤ m ∧ ((∃ a, r.label m = some a ∧ kind a) ∨ ¬ able (r.state m))

/-- Whenever there is `P`, there is `Q` at that time or later. -/
def LeadsTo (P Q : σ → Prop) : Prop :=
  ∀ n, P (r.state n) → ∃ m, n ≤ m ∧ Q (r.state m)

variable {r}

/-- What every step keeps is kept for ever. -/
theorem stable (hstep : ∀ s a s', S.Reachable s → P s → S.step s a s' → P s') {n m : Nat}
    (hn : P (r.state n)) (hle : n ≤ m) : P (r.state m) := by
  induction m, hle using Nat.le_induction with
  | base => exact hn
  | succ m _ ih =>
      cases hlabel : r.label m with
      | none => exact r.still m hlabel ▸ ih
      | some a => exact hstep _ a _ (r.reachable m) ih (r.step m a hlabel)

/-- Step by step, either something occurs or `P` goes on. -/
theorem lasts_until {E : Nat → Prop} {n m : Nat} (hn : P (r.state n)) (hle : n ≤ m)
    (hstep : ∀ k a, n ≤ k → P (r.state k) → r.label k = some a → E k ∨ P (r.state (k + 1))) :
    (∃ k, n ≤ k ∧ E k) ∨ P (r.state m) := by
  induction m, hle using Nat.le_induction with
  | base => exact Or.inr hn
  | succ m hle ih =>
      rcases ih with hE | hP
      · exact Or.inl hE
      · cases hlabel : r.label m with
        | none => exact Or.inr (r.still m hlabel ▸ hP)
        | some a => exact (hstep m a hle hP hlabel).imp_left fun hE => ⟨m, hle, hE⟩

/-- What holds of each of finitely many from some time on holds of all from some
time on. -/
theorem eventually_forall {α : Type*} {p : Nat → α → Prop} (xs : List α)
    (h : ∀ x ∈ xs, ∃ n, ∀ m, n ≤ m → p m x) : ∃ n, ∀ m, n ≤ m → ∀ x ∈ xs, p m x := by
  induction xs with
  | nil => exact ⟨0, fun _ _ x hx => absurd hx List.not_mem_nil⟩
  | cons x xs ih =>
      obtain ⟨n, hn⟩ := h x List.mem_cons_self
      obtain ⟨k, hk⟩ := ih fun y hy => h y (List.mem_cons_of_mem x hy)
      refine ⟨max n k, fun m hm y hy => ?_⟩
      rcases List.mem_cons.mp hy with rfl | hy
      · exact hn m (Nat.le_trans (Nat.le_max_left n k) hm)
      · exact hk m (Nat.le_trans (Nat.le_max_right n k) hm) y hy

theorem LeadsTo.of_imp (h : ∀ s, S.Reachable s → P s → Q s) : r.LeadsTo P Q :=
  fun n hn => ⟨n, Nat.le_refl n, h _ (r.reachable n) hn⟩

theorem LeadsTo.trans (h : r.LeadsTo P Q) (h' : r.LeadsTo Q R) : r.LeadsTo P R := by
  intro n hn
  obtain ⟨m, hle, hm⟩ := h n hn
  obtain ⟨k, hle', hk⟩ := h' m hm
  exact ⟨k, Nat.le_trans hle hle', hk⟩

/-- What leads to one of two, the first of which leads to the second. -/
theorem LeadsTo.trans_or (h : r.LeadsTo P fun s => Q s ∨ R s) (h' : r.LeadsTo Q R) :
    r.LeadsTo P R := by
  intro n hn
  obtain ⟨m, hle, hQ | hR⟩ := h n hn
  · obtain ⟨k, hle', hk⟩ := h' m hQ
    exact ⟨k, Nat.le_trans hle hle', hk⟩
  · exact ⟨m, hle, hR⟩

theorem LeadsTo.or (h : r.LeadsTo P R) (h' : r.LeadsTo Q R) :
    r.LeadsTo (fun s => P s ∨ Q s) R :=
  fun n hn => hn.elim (h n) (h' n)

section Rank

variable {κ : Type*} {able : κ → σ → Prop} {kind : κ → ι → Prop}
  {rank : σ → Nat} {helper : σ → κ}

/-- A step of the rule: `Q` is reached, or `P` stays and the rank drops, or all
stays as it was and the step was not of the helpful kind. -/
def Nearer (P Q : σ → Prop) (kind : κ → ι → Prop) (rank : σ → Nat) (helper : σ → κ) (s : σ) (a : ι)
    (s' : σ) : Prop :=
  Q s' ∨ P s' ∧ (rank s' < rank s ∨
    rank s' = rank s ∧ helper s' = helper s ∧ ¬ kind (helper s) a)

/-- Up to a later moment `Q` is reached, or the rank drops, or all stays as it was. -/
theorem nearer_until (hstep : ∀ s a s', S.Reachable s → P s → S.step s a s' →
      Nearer P Q kind rank helper s a s') {n m : Nat} (hn : P (r.state n)) (hle : n ≤ m) :
    (∃ k, n ≤ k ∧ Q (r.state k)) ∨
      (∃ k, n ≤ k ∧ P (r.state k) ∧ rank (r.state k) < rank (r.state n)) ∨
      P (r.state m) ∧ rank (r.state m) = rank (r.state n) ∧
        helper (r.state m) = helper (r.state n) := by
  induction m, hle using Nat.le_induction with
  | base => exact Or.inr (Or.inr ⟨hn, rfl, rfl⟩)
  | succ m hle ih =>
      rcases ih with hQ | hless | ⟨hm, hrank, hhelper⟩
      · exact Or.inl hQ
      · exact Or.inr (Or.inl hless)
      · cases hlabel : r.label m with
        | none => exact Or.inr (Or.inr (r.still m hlabel ▸ ⟨hm, hrank, hhelper⟩))
        | some a =>
            rcases hstep _ a _ (r.reachable m) hm (r.step m a hlabel) with
              hQ | ⟨hP, hless | ⟨heq, hsame, -⟩⟩
            · exact Or.inl ⟨m + 1, Nat.le_succ_of_le hle, hQ⟩
            · exact Or.inr (Or.inl ⟨m + 1, Nat.le_succ_of_le hle, hP, hrank ▸ hless⟩)
            · exact Or.inr (Or.inr ⟨hP, heq.trans hrank, hsame.trans hhelper⟩)

/-- Where a helpful kind of step is always possible and the rank never rises, `P`
leads to `Q`. -/
theorem LeadsTo.of_rank (rank : σ → Nat) (helper : σ → κ)
    (hfair : ∀ k, r.Fair (able k) (kind k))
    (hable : ∀ s, S.Reachable s → P s → able (helper s) s)
    (hstep : ∀ s a s', S.Reachable s → P s → S.step s a s' →
      Nearer P Q kind rank helper s a s') : r.LeadsTo P Q := by
  intro n
  induction hrank : rank (r.state n) using Nat.strongRecOn generalizing n with
  | _ k ih =>
      intro hn
      have hlater : ∀ m, n ≤ m → P (r.state m) → rank (r.state m) < rank (r.state n) →
          ∃ m, n ≤ m ∧ Q (r.state m) := by
        intro m hle hm hless
        obtain ⟨j, hj, hQ⟩ := ih _ (hrank ▸ hless) m rfl hm
        exact ⟨j, Nat.le_trans hle hj, hQ⟩
      obtain ⟨m, hle, htaken⟩ := hfair (helper (r.state n)) n
      rcases nearer_until hstep hn hle with hQ | ⟨j, hj, hP, hless⟩ | ⟨hm, heq, hsame⟩
      · exact hQ
      · exact hlater j hj hP hless
      · -- Nothing has changed when the helpful step is taken.
        rcases htaken with ⟨a, hlabel, hkind⟩ | hunable
        · rcases hstep _ a _ (r.reachable m) hm (r.step m a hlabel) with
            hQ | ⟨hP, hless | ⟨-, -, hother⟩⟩
          · exact ⟨m + 1, Nat.le_succ_of_le hle, hQ⟩
          · exact hlater (m + 1) (Nat.le_succ_of_le hle) hP (heq ▸ hless)
          · exact absurd (hsame ▸ hkind) hother
        · exact absurd (hsame ▸ hable _ (r.reachable m) hm) hunable

end Rank

/-! ## Behaviors that stop -/

/-- The states a list of labels goes through, then the last one for ever. -/
def visited (next : σ → ι → Option σ) : List ι → σ → Nat → σ
  | [], s, _ => s
  | _ :: _, s, 0 => s
  | a :: as, s, n + 1 => ((next s a).map fun s' => visited next as s' n).getD s

theorem visited_zero {next : σ → ι → Option σ} (as : List ι) (s : σ) :
    visited next as s 0 = s := by
  cases as <;> rfl

theorem visited_still {next : σ → ι → Option σ} {as : List ι} {s s' : σ} {n : Nat}
    (h : System.play next as s = some s') (hn : as.length ≤ n) : visited next as s n = s' := by
  induction as generalizing s n with
  | nil => exact Option.some.inj h
  | cons a as ih =>
      obtain ⟨t, ht, h⟩ := Option.bind_eq_some_iff.mp h
      cases n with
      | zero => exact absurd hn (Nat.not_succ_le_zero _)
      | succ n =>
          rw [visited, ht, Option.map_some, Option.getD_some]
          exact ih h (Nat.le_of_succ_le_succ hn)

theorem visited_step {next : σ → ι → Option σ} {as : List ι} {s s' : σ} {n : Nat} {a : ι}
    (h : System.play next as s = some s') (hn : as[n]? = some a) :
    next (visited next as s n) a = some (visited next as s (n + 1)) := by
  induction as generalizing s n with
  | nil => cases hn
  | cons b as ih =>
      obtain ⟨t, ht, h⟩ := Option.bind_eq_some_iff.mp h
      rw [visited, ht, Option.map_some, Option.getD_some]
      cases n with
      | zero =>
          obtain rfl := Option.some.inj hn
          rw [visited_zero, visited_zero, ht]
      | succ n =>
          rw [visited, ht, Option.map_some, Option.getD_some]
          exact ih h hn

/-- The behavior that plays a list of labels and then stands still. -/
def ofPlay (S : System σ ι) (next : σ → ι → Option σ)
    (hnext : ∀ s a s', next s a = some s' → S.step s a s') (as : List ι) (s s' : σ)
    (hinit : S.init s) (h : System.play next as s = some s') : S.Behavior where
  state := visited next as s
  label n := as[n]?
  init := (visited_zero as s : visited next as s 0 = s).symm ▸ hinit
  still n hn := by
    have hle := List.getElem?_eq_none_iff.mp hn
    rw [visited_still h hle, visited_still h (Nat.le_succ_of_le hle)]
  step n a hn := hnext _ _ _ (visited_step h hn)

/-- Where it stops, a fair behavior has no step of the kind left. -/
theorem ofPlay_fair {next : σ → ι → Option σ}
    {hnext : ∀ s a s', next s a = some s' → S.step s a s'} {as : List ι} {s s' : σ}
    {hinit : S.init s} {h : System.play next as s = some s'} {able : σ → Prop} {kind : ι → Prop}
    (hstop : ¬ able s') : (ofPlay S next hnext as s s' hinit h).Fair able kind := by
  intro n
  refine ⟨max n as.length, Nat.le_max_left _ _, Or.inr ?_⟩
  show ¬ able (visited next as s (max n as.length))
  rw [visited_still h (Nat.le_max_right _ _)]
  exact hstop

end Behavior

end System

end OsConcepts
