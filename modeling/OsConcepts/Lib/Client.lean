import Mathlib.Init

/-!
# Programs over an interface

A `Client` is a program that makes calls and goes on with their answers; what a
call does is left open. `exec` runs it over an implementation of the calls, and
`Runs` over a relation that says what a call may answer and which state it
leaves. A client comes back over an implementation just where it runs over the
relation of it (`exec_eq_ok_iff`).

The rule that matters is `Runs.simulate`: a client of the one level is a client
of the other, if the calls of the one are calls of the other. So what holds of a
client over a specification of its calls holds of it over their code.
-/

namespace OsConcepts

universe u

/-- A program that makes calls `κ`, answered by `ρ`. It may break off with `ε`. -/
inductive Client (κ ρ ε α : Type*) where
  | done (a : α)
  | fail (e : ε)
  | call (c : κ) (next : ρ → Client κ ρ ε α)

namespace Client

variable {κ ρ ε α β σ τ : Type*}

def bind : Client κ ρ ε α → (α → Client κ ρ ε β) → Client κ ρ ε β
  | done a, k => k a
  | fail e, _ => fail e
  | call c next, k => call c fun r => (next r).bind k

instance : Monad (Client κ ρ ε) where
  pure := done
  bind := bind

@[simp] theorem bind_eq {γ δ : Type u} (p : Client κ ρ ε γ) (k : γ → Client κ ρ ε δ) :
    p >>= k = p.bind k := rfl

/-- Nothing is asked before `k`. -/
theorem pure_bind_eq {γ δ : Type u} (a : γ) (k : γ → Client κ ρ ε δ) :
    (pure a : Client κ ρ ε γ) >>= k = k a := rfl

theorem bind_assoc {γ : Type*} (p : Client κ ρ ε α) (k : α → Client κ ρ ε β)
    (l : β → Client κ ρ ε γ) : (p.bind k).bind l = p.bind fun a => (k a).bind l := by
  induction p with
  | done a => rfl
  | fail e => rfl
  | call c next ih => exact congrArg (call c) (funext ih)

theorem bind_done (p : Client κ ρ ε α) : p.bind done = p := by
  induction p with
  | done a => rfl
  | fail e => rfl
  | call c next ih => exact congrArg (call c) (funext ih)

/-- One call. -/
def ask (c : κ) : Client κ ρ ε ρ := call c done

/-- Running over an implementation of the calls. -/
def exec (impl : κ → σ → Except ε (ρ × σ)) : Client κ ρ ε α → σ → Except ε (α × σ)
  | done a, s => .ok (a, s)
  | fail e, _ => .error e
  | call c next, s =>
      match impl c s with
      | .ok (r, s) => exec impl (next r) s
      | .error e => .error e

/-- Every call that is made meets a condition in the state it is made in. -/
def Heeds (impl : κ → σ → Except ε (ρ × σ)) (P : σ → κ → Prop) : Client κ ρ ε α → σ → Prop
  | done _, _ => True
  | fail _, _ => True
  | call c next, s => P s c ∧ ∀ r s', impl c s = .ok (r, s') → (next r).Heeds impl P s'

/-- Running over what the calls may do. -/
inductive Runs (step : σ → κ → ρ → σ → Prop) : Client κ ρ ε α → σ → α → σ → Prop
  | done {a : α} {s : σ} : Runs step (.done a) s a s
  | call {c : κ} {next : ρ → Client κ ρ ε α} {r : ρ} {a : α} {s s' s'' : σ} :
      step s c r s' → Runs step (next r) s' a s'' → Runs step (.call c next) s a s''

section

variable {step : σ → κ → ρ → σ → Prop} {p : Client κ ρ ε α} {k : α → Client κ ρ ε β} {c : κ}
  {a a' : α} {b : β} {e : ε} {s s' : σ}

@[simp] theorem runs_pure :
    Runs step (Pure.pure a : Client κ ρ ε α) s a' s' ↔ a' = a ∧ s' = s := by
  constructor
  · intro h
    cases h
    exact ⟨rfl, rfl⟩
  · rintro ⟨rfl, rfl⟩
    exact .done

@[simp] theorem not_runs_fail : ¬ Runs step (.fail e : Client κ ρ ε α) s a s' := by
  intro h
  cases h

theorem runs_call {next : ρ → Client κ ρ ε α} :
    Runs step (.call c next) s a s' ↔ ∃ r t, step s c r t ∧ Runs step (next r) t a s' := by
  constructor
  · intro h
    cases h with
    | call hs hr => exact ⟨_, _, hs, hr⟩
  · rintro ⟨r, t, hs, hr⟩
    exact .call hs hr

@[simp] theorem runs_ask {r : ρ} :
    Runs step (ask c : Client κ ρ ε ρ) s r s' ↔ step s c r s' := by
  refine runs_call.trans ⟨?_, fun h => ⟨r, s', h, .done⟩⟩
  rintro ⟨r', t, hs, hr⟩
  cases hr
  exact hs

/-- One after the other. -/
@[simp] theorem runs_bind : Runs step (p.bind k) s b s' ↔
    ∃ a t, Runs step p s a t ∧ Runs step (k a) t b s' := by
  induction p generalizing s with
  | done a =>
      refine ⟨fun h => ⟨a, s, .done, h⟩, ?_⟩
      rintro ⟨a', t, hp, hk⟩
      cases hp
      exact hk
  | fail e => exact iff_of_false not_runs_fail fun ⟨_, _, hp, _⟩ => not_runs_fail hp
  | call c next ih =>
      rw [Client.bind, runs_call]
      constructor
      · rintro ⟨r, t, hs, hr⟩
        obtain ⟨a, t', hp, hk⟩ := (ih r).mp hr
        exact ⟨a, t', .call hs hp, hk⟩
      · rintro ⟨a, t', hp, hk⟩
        obtain ⟨r, t, hs, hr⟩ := runs_call.mp hp
        exact ⟨r, t, hs, (ih r).mpr ⟨a, t', hr, hk⟩⟩

/-- A client of one level is a client of the other. -/
theorem Runs.simulate {step' : τ → κ → ρ → τ → Prop} {R : σ → τ → Prop}
    (hstep : ∀ s t c r s', R s t → step s c r s' → ∃ t', step' t c r t' ∧ R s' t')
    (h : Runs step p s a s') : ∀ {t : τ}, R s t → ∃ t', Runs step' p t a t' ∧ R s' t' := by
  induction h with
  | done => exact fun hR => ⟨_, .done, hR⟩
  | call hs _ ih =>
      intro t hR
      obtain ⟨t₁, hs', hR₁⟩ := hstep _ _ _ _ _ hR hs
      obtain ⟨t₂, hr, hR₂⟩ := ih hR₁
      exact ⟨t₂, .call hs' hr, hR₂⟩

end

/-! ## Over an implementation -/

section

variable {impl : κ → σ → Except ε (ρ × σ)} {p : Client κ ρ ε α} {a : α} {s s' : σ}

/-- What the calls of an implementation do, where they come back. -/
def Answers (impl : κ → σ → Except ε (ρ × σ)) (s : σ) (c : κ) (r : ρ) (s' : σ) : Prop :=
  impl c s = .ok (r, s')

theorem exec_call {c : κ} {next : ρ → Client κ ρ ε α} :
    (call c next).exec impl s = .ok (a, s') ↔
      ∃ r t, impl c s = .ok (r, t) ∧ (next r).exec impl t = .ok (a, s') := by
  rw [exec]
  cases himpl : impl c s with
  | error e =>
      refine iff_of_false (fun h => by cases h) ?_
      rintro ⟨r, t, hc, -⟩
      cases hc
  | ok x =>
      refine ⟨fun h => ⟨x.1, x.2, rfl, h⟩, ?_⟩
      rintro ⟨r, t, hc, hr⟩
      cases hc
      exact hr

/-- A client comes back just where it runs over the calls that come back. -/
theorem exec_eq_ok_iff : p.exec impl s = .ok (a, s') ↔ Runs (Answers impl) p s a s' := by
  induction p generalizing s with
  | done a' =>
      constructor
      · intro h
        cases h
        exact .done
      · intro h
        cases h
        rfl
  | fail e => exact iff_of_false (fun h => by cases h) not_runs_fail
  | call c next ih =>
      rw [exec_call, runs_call]
      exact exists_congr fun r => exists_congr fun t => and_congr_right fun _ => ih r

/-- The calls of a client that heeds a condition meet it. -/
theorem Runs.heeds {P : σ → κ → Prop} (h : Runs (Answers impl) p s a s') (hp : p.Heeds impl P s) :
    Runs (fun s c r s' => P s c ∧ impl c s = .ok (r, s')) p s a s' := by
  induction h with
  | done => exact .done
  | call hs _ ih => exact .call ⟨hp.1, hs⟩ (ih (hp.2 _ _ hs))

/-- Over calls that meet a condition, a client heeds it and comes back. -/
theorem Runs.exec_heeds {P : σ → κ → Prop}
    (h : Runs (fun s c r s' => P s c ∧ impl c s = .ok (r, s')) p s a s') :
    p.Heeds impl P s ∧ p.exec impl s = .ok (a, s') := by
  induction h with
  | done => exact ⟨trivial, rfl⟩
  | call hs _ ih =>
      refine ⟨⟨hs.1, fun r t hr => ?_⟩, exec_call.mpr ⟨_, _, hs.2, ih.2⟩⟩
      rw [hs.2, Except.ok.injEq, Prod.mk.injEq] at hr
      obtain ⟨rfl, rfl⟩ := hr
      exact ih.1

end

end Client

end OsConcepts
