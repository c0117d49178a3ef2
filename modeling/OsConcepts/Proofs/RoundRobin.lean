import OsConcepts.Lib.Queue
import OsConcepts.Proofs.IoRequests

/-!
# Round robin

The task `cexecScheduler` has popped and then `taskReadyQueue` are the tasks in
the order they are dispatched (`upcoming`), and nothing but the tail of it is ever
added to: `orderly`. A task that yields goes straight back to `taskReadyQueue`
(`Yielding`), behind the tasks that are there at that moment, and these are
dispatched before its next turn.
-/

namespace OsConcepts.Sut

open OsConcepts

variable {s s' : State} {l : Label} {t : Nat}

/-! ## The order of the dispatches -/

/-- The task popped and about to be switched to. -/
def CexecPc.popped : CexecPc → List Nat
  | .swap e => [e]
  | _ => []

namespace State

variable (s : State)

/-- The task a step dispatches: the one whose context `swapcontext` resumes. -/
def dispatches : Label → List Nat
  | .cexec =>
      match s.cexecPc with
      | .swap _ => (s.cexecCurrentRunningTask.map fun c => (s.record c).context.task).toList
      | _ => []
  | _ => []

/-- The tasks in the order they are dispatched. -/
def upcoming : List Nat := s.cexecPc.popped ++ s.taskReadyQueue

end State

theorem dispatches_of_popped_nil (h : s.cexecPc.popped = []) : s.dispatches l = [] := by
  cases l with
  | cexec =>
      unfold State.dispatches
      cases hpc : s.cexecPc with
      | swap e =>
          rw [hpc] at h
          cases h
      | _ => rfl
  | _ => rfl

theorem CexecIdle.popped {pc : CexecPc} (h : CexecIdle s pc) :
    s.cexecPc.popped = [] ∧ pc.popped = [] := by
  cases h with
  | empty hpc | bothEmpty hpc | notEmpty hpc | isShutdown hpc | cexecNull hpc | iexecNull hpc
  | failed hpc => exact ⟨by rw [hpc]; rfl, rfl⟩

/-- What is dispatched is what was popped. -/
theorem dispatches_swap (h : Core s) {e : Nat} (hpc : s.cexecPc = .swap e) :
    s.dispatches .cexec = [e] := by
  have hheld : s.cexecPc.held = some e := by rw [hpc]; rfl
  unfold State.dispatches
  rw [hpc]
  dsimp only
  rw [h.current_eq hheld, Option.map_some, h.context e (h.held_created hheld)]
  rfl

/-- The task a step dispatches comes first. -/
theorem head_upcoming (h : Core s) (ht : t ∈ s.dispatches l) : s.upcoming.head? = some t := by
  cases l with
  | cexec =>
      cases hpc : s.cexecPc with
      | swap e =>
          rw [dispatches_swap h hpc] at ht
          rw [State.upcoming, hpc, List.mem_singleton.mp ht]
          rfl
      | _ =>
          rw [dispatches_of_popped_nil (by rw [hpc]; rfl)] at ht
          exact absurd ht List.not_mem_nil
  | _ => exact absurd ht List.not_mem_nil

theorem ready_nodup (h : Core s) : s.taskReadyQueue.Nodup := by
  refine List.nodup_iff_count.mpr ?_
  intro t
  have hcount := h.places t
  rw [count_places] at hcount
  split at hcount <;> omega

/-- Steps that dispatch no task and pop none. -/
theorem upcoming_joined {joined : List Nat} (hnone : s.dispatches l = [])
    (hpopped : s'.cexecPc.popped = s.cexecPc.popped)
    (hready : s'.taskReadyQueue = s.taskReadyQueue ++ joined) :
    ∃ joined, s.dispatches l ++ s'.upcoming = s.upcoming ++ joined := by
  refine ⟨joined, ?_⟩
  rw [hnone, State.upcoming, State.upcoming, hpopped, hready, List.append_assoc]
  rfl

/-- The same for steps of `cexecScheduler`, between whose places none is popped. -/
theorem upcoming_moved {joined : List Nat} (hold : s.cexecPc.popped = [])
    (hnew : s'.cexecPc.popped = []) (hready : s'.taskReadyQueue = s.taskReadyQueue ++ joined) :
    ∃ joined, s.dispatches l ++ s'.upcoming = s.upcoming ++ joined :=
  upcoming_joined (dispatches_of_popped_nil hold) (hnew.trans hold.symm) hready

theorem step_upcoming (h : Core s) (hstep : s.step l = some s') :
    ∃ joined, s.dispatches l ++ s'.upcoming = s.upcoming ++ joined := by
  cases steps_of_step hstep with
  | mainCreate | create | iexecInsert => exact upcoming_joined rfl rfl rfl
  | peek hpc | setCurrent hpc | assign hpc | switch hpc | result hpc | active hpc | finished hpc
  | insertWait hpc | cexecClear hpc | call hpc =>
      exact upcoming_moved (by rw [hpc]; rfl) rfl (List.append_nil _).symm
  | insertReady hpc => exact upcoming_moved (by rw [hpc]; rfl) rfl rfl
  | cexecIdle hidle =>
      obtain ⟨hold, hnew⟩ := hidle.popped
      exact upcoming_moved hold hnew (List.append_nil _).symm
  | @pop e hpc =>
      obtain ⟨rest, hready⟩ := List.head?_eq_some_iff.mp (h.cexecPeeked e (by rw [hpc]; rfl))
      refine ⟨[], ?_⟩
      rw [dispatches_of_popped_nil (by rw [hpc]; rfl), State.upcoming, State.upcoming, hpc, hready]
      exact (List.append_nil _).symm
  | @swap e c hpc hcur =>
      refine ⟨[], ?_⟩
      have hresume : (State.resume e (s.record c).context).popped = [] := by
        unfold State.resume
        split <;> rfl
      rw [dispatches_swap h hpc, State.upcoming, State.upcoming, hpc, hresume, List.append_nil]
      rfl
  | _ => exact upcoming_joined rfl rfl (List.append_nil _).symm

/-- Tasks are dispatched first come, first served. -/
theorem orderly : system.Orderly State.upcoming State.dispatches :=
  fun _ _ _ hs hstep => step_upcoming (reachable_core hs) hstep

/-! ## From the yield to the queue -/

/-- Neither `sut_create` nor `iexecScheduler` touches the record of the task
`cexecScheduler` holds. -/
theorem sutCreate_record_held (h : Core s) (hheld : s.cexecPc.held = some t)
    (junk : IoOperationData) : (s.sutCreate junk).record t = s.record t :=
  record_setRecord_ne s _ fun heq => malloced_not_created h (heq ▸ h.held_created hheld)

theorem setRecord_record_held (h : Core s) (hheld : s.cexecPc.held = some t) {e : Nat}
    (he : s.iexecPc.held = some e) (r : QueueEntry) : (s.setRecord e r).record t = s.record t :=
  record_setRecord_ne s r fun heq => (h.cexec_alone hheld).2.2 (heq ▸ he)

/-- The task `cexecScheduler` has switched to, or is about to, has not exited. -/
def Awake (s : State) : Prop :=
  ∀ e, s.cexecPc.resumed = some e → (s.record e).isTaskActive = true

theorem Awake.start : Awake start := nofun

theorem step_awake (hc : Core s) (h : Awake s) (hstep : s.step l = some s') : Awake s' := by
  cases steps_of_step hstep with
  | mainCreate | create =>
      intro e he
      have he : s.cexecPc.resumed = some e := he
      rw [sutCreate_record_held hc (CexecPc.held_of_resumed he)]
      exact h e he
  | @pop e hpc =>
      intro i hi
      obtain rfl := Option.some.inj hi
      exact (hc.live_of_ready (List.mem_of_head? (hc.cexecPeeked e (by rw [hpc]; rfl)))).2
  | @swap e c hpc hcur =>
      intro i hi
      have hawake := h e (by rw [hpc]; rfl)
      dsimp only [State.resume] at hi
      split at hi <;> exact Option.some.inj hi ▸ hawake
  | @result e t c point hpc hcur =>
      intro i hi
      obtain rfl := Option.some.inj hi
      exact h e (by rw [hpc]; rfl)
  | cexecIdle hidle =>
      intro i hi
      cases hidle.held.2.1.symm.trans (CexecPc.held_of_resumed hi)
  | serve hpc | reset hpc =>
      intro i hi
      have hheld : s.cexecPc.held = some i := CexecPc.held_of_resumed hi
      exact (congrArg QueueEntry.isTaskActive
        (setRecord_record_held hc hheld (by rw [hpc]; rfl) _)).trans (h i hi)
  | call | peek | setCurrent | assign | switch | active | finished | insertWait | insertReady
  | cexecClear => nofun
  | _ => exact h

/-- `cexecScheduler` on the way from the `sut_yield` of `t` to its insertion. -/
structure Yielding (t : Nat) (s : State) : Prop where
  place : s.cexecPc = .call t t sutYield ∨ s.cexecPc = .afterSwap t ∨ s.cexecPc = .insert t
  active : (s.record t).isTaskActive = true
  noRequest : (s.record t).ioOperationType = .noIoOpRequested

namespace Yielding

theorem held (h : Yielding t s) : s.cexecPc.held = some t := by
  rcases h.place with hpc | hpc | hpc <;> rw [hpc] <;> rfl

theorem task (h : Yielding t s) {e : Nat} (he : s.cexecPc.held = some e) : e = t :=
  Option.some.inj (he.symm.trans h.held)

theorem popped (h : Yielding t s) : s.cexecPc.popped = [] := by
  rcases h.place with hpc | hpc | hpc <;> rw [hpc] <;> rfl

/-- Steps of the others. -/
theorem same (h : Yielding t s) (hpc : s'.cexecPc = s.cexecPc)
    (hrecord : s'.record t = s.record t) : Yielding t s' := by
  obtain ⟨hplace, hactive, hnone⟩ := h
  rw [← hpc] at hplace
  rw [← hrecord] at hactive hnone
  exact ⟨hplace, hactive, hnone⟩

/-- The call of `sut_yield`. -/
theorem of_call (hc : Core s) (ht : Typed s) (hawake : Awake s)
    (hrun : s.cexecPc.running = some t) (hcall : s.step (.call .yield) = some s') :
    Yielding t s' := by
  have hheld := hc.running t hrun
  cases steps_of_step hcall with
  | @call e t' c hpc =>
      rw [hpc] at hrun hheld
      obtain rfl := Option.some.inj hrun
      obtain rfl := Option.some.inj hheld
      exact ⟨Or.inl rfl, hawake e (by rw [hpc]; rfl), ht.resumed e (by rw [hpc]; rfl)⟩

/-- A step leaves the task on its way, or puts it in `taskReadyQueue`. -/
theorem step (hc : Core s) (h : Yielding t s) (hstep : s.step l = some s') :
    Yielding t s' ∨
      s.cexecPc = .insert t ∧ l = .cexec ∧ s' = { s.insertReady t with cexecPc := .clear } := by
  have hheld := h.held
  cases steps_of_step hstep with
  | mainCreate => exact Or.inl (h.same rfl (sutCreate_record_held hc hheld _))
  | serve hpc | reset hpc =>
      exact Or.inl (h.same rfl (setRecord_record_held hc hheld (by rw [hpc]; rfl) _))
  | initCexec | initIexec | shutdown | iexecPeek | iexecSetCurrent | iexecPop | iexecInsert
  | iexecIdle | iexecClear => exact Or.inl (h.same rfl rfl)
  | @switch e t' c point hpc hcur =>
      obtain rfl := h.task (e := e) (by rw [hpc]; rfl)
      obtain rfl := hc.current_unique hheld hcur
      have hrecord := record_setRecord_self s e { s.record e with context := ⟨t', point⟩ }
      exact Or.inl ⟨Or.inr (Or.inl rfl),
        (congrArg QueueEntry.isTaskActive hrecord).trans h.active,
        (congrArg QueueEntry.ioOperationType hrecord).trans h.noRequest⟩
  | @active e c hpc hcur =>
      obtain rfl := h.task (e := e) (by rw [hpc]; rfl)
      exact Or.inl ⟨Or.inr (Or.inr rfl), h.active, h.noRequest⟩
  | @finished e c hpc hcur hexited =>
      obtain rfl := hc.current_unique hheld hcur
      rw [h.active] at hexited
      cases hexited
  | @insertWait e hpc htype =>
      obtain rfl := h.task (e := e) (by rw [hpc]; rfl)
      exact absurd h.noRequest htype
  | @insertReady e hpc htype =>
      obtain rfl := h.task (e := e) (by rw [hpc]; rfl)
      exact Or.inr ⟨hpc, rfl, rfl⟩
  | cexecIdle hidle => cases hidle.held.1.symm.trans hheld
  | create hpc | call hpc | peek hpc | setCurrent hpc | pop hpc | swap hpc | assign hpc
  | result hpc | cexecClear hpc =>
      rcases h.place with hplace | hplace | hplace <;> cases hpc.symm.trans hplace

end Yielding

theorem reachable_awake (h : system.Reachable s) : Core s ∧ Typed s ∧ Awake s :=
  System.Reachable.invariant (S := system) (I := fun s => Core s ∧ Typed s ∧ Awake s)
    (fun _ hs => hs ▸ ⟨Core.start, Typed.start, Awake.start⟩)
    (fun _ _ _ ⟨hc, ht, ha⟩ hs => ⟨step_core hc hs, step_typed hc ht hs, step_awake hc ha hs⟩) h

/-- The moment a task that yields is put back. -/
structure Reinserted (t : Nat) (r r' : State) : Prop where
  place : r.cexecPc = .insert t
  step : r.step .cexec = some r'
  ready : r'.taskReadyQueue = r.taskReadyQueue ++ [t]

theorem Reinserted.upcoming {r r' : State} (h : Reinserted t r r') :
    r'.upcoming = r.taskReadyQueue ++ [t] := by
  have hpopped : r'.cexecPc.popped = [] := by
    have hstep := h.step
    simp only [State.step, State.cexecStep, h.place] at hstep
    split at hstep <;> (obtain rfl := Option.some.inj hstep; rfl)
  rw [State.upcoming, hpopped, h.ready]
  rfl

/-- After the call of `sut_yield` the task is on its way back, with none dispatched,
or has been put back, with none dispatched before. -/
theorem yield_stretch {s₁ s₂ : State} {ds : List Nat} (hs : system.Reachable s₁)
    (h : Yielding t s₁) (hst : system.Stretch State.dispatches s₁ ds s₂) :
    Yielding t s₂ ∧ ds = [] ∨
      ∃ r r', system.Stretch State.dispatches s₁ [] r ∧ Reinserted t r r' ∧
        system.Stretch State.dispatches r' ds s₂ := by
  induction hst with
  | refl => exact Or.inl ⟨h, rfl⟩
  | @step ds s₂ s₃ l hst hstep ih =>
      rcases ih with ⟨hyielding, rfl⟩ | ⟨r, r', hbefore, hput, hafter⟩
      · have hnone : s₂.dispatches l = [] := dispatches_of_popped_nil hyielding.popped
        rw [hnone]
        rcases hyielding.step (reachable_core (hs.stretch hst)) hstep with hnext | ⟨hpc, rfl, rfl⟩
        · exact Or.inl ⟨hnext, rfl⟩
        · exact Or.inr ⟨s₂, _, hst, ⟨hpc, hstep, rfl⟩, .refl⟩
      · exact Or.inr ⟨r, r', hbefore, hput, hafter.step hstep⟩

/-- What happens from the call of `sut_yield`, in `s₁`, to the next turn of `t`, in
`s₂`: the task is put back before any other is dispatched, and then those are
dispatched that stood in `taskReadyQueue` at that moment, each once and in their
order there. -/
structure Round (t : Nat) (s₁ : State) (ds : List Nat) (s₂ r r' : State) : Prop where
  before : system.Stretch State.dispatches s₁ [] r
  reinserted : Reinserted t r r'
  after : system.Stretch State.dispatches r' ds s₂
  order : ds = r.taskReadyQueue
  once : ds.Nodup

/-- Round robin: whatever happens between a task's `sut_yield` and its next turn. -/
theorem round_robin {s₁ s₂ : State} {ds : List Nat} (hs : system.Reachable s)
    (hrun : s.cexecPc.running = some t) (hyield : s.step (.call .yield) = some s₁)
    (hst : system.Stretch State.dispatches s₁ ds s₂) (hfirst : t ∉ ds)
    (hnext : t ∈ s₂.dispatches l) : ∃ r r', Round t s₁ ds s₂ r r' := by
  obtain ⟨hc, ht, ha⟩ := reachable_awake hs
  have hs₁ : system.Reachable s₁ := hs.step hyield
  rcases yield_stretch hs₁ (.of_call hc ht ha hrun hyield) hst with
    ⟨hyielding, -⟩ | ⟨r, r', hbefore, hput, hafter⟩
  · rw [dispatches_of_popped_nil hyielding.popped] at hnext
    exact absurd hnext List.not_mem_nil
  · have hr : system.Reachable r := hs₁.stretch hbefore
    have hr' : system.Reachable r' := hr.step hput.step
    have hs₂ : system.Reachable s₂ := hr'.stretch hafter
    have haway : t ∉ r.taskReadyQueue :=
      ((reachable_core hr).cexec_alone (by rw [hput.place]; rfl)).1
    have horder : ds = r.taskReadyQueue :=
      orderly.turn hr' hafter hput.upcoming haway hfirst (head_upcoming (reachable_core hs₂) hnext)
    exact ⟨r, r', hbefore, hput, hafter, horder, horder ▸ ready_nodup (reachable_core hr)⟩

/-- The steps after the yield of a first task: it is put back, the main thread
creates another, and the second task runs and yields. -/
def turnOfSecond (junk : IoOperationData) : List Label :=
  List.replicate 3 .cexec ++ [.mainCreate junk] ++ List.replicate 5 .cexec ++ callSteps .yield 0 ++
    List.replicate 3 .cexec

/-- The task that the main thread creates after the first is back has to wait. -/
theorem round_robin_three :
    ∃ s s₁ s₂,
      System.play State.step (firstTask ⟨⟨0, 0⟩, ⟨0, 0, 0, 0⟩, ⟨0, 0, 0⟩, ⟨0⟩⟩ ++
        [.mainCreate ⟨⟨0, 0⟩, ⟨0, 0, 0, 0⟩, ⟨0, 0, 0⟩, ⟨0⟩⟩]) start = some s ∧
      s.step (.call .yield) = some s₁ ∧
      System.play State.step (turnOfSecond ⟨⟨0, 0⟩, ⟨0, 0, 0, 0⟩, ⟨0, 0, 0⟩, ⟨0⟩⟩) s₁ = some s₂ ∧
      s₂.taskReadyQueue = [4, 3] ∧ s₂.dispatches .cexec = [2] ∧
      ∃ r r', Round 2 s₁ [3] s₂ r r' := by
  have hplay : ∃ s s₁ s₂,
      System.play State.step (firstTask ⟨⟨0, 0⟩, ⟨0, 0, 0, 0⟩, ⟨0, 0, 0⟩, ⟨0⟩⟩ ++
        [.mainCreate ⟨⟨0, 0⟩, ⟨0, 0, 0, 0⟩, ⟨0, 0, 0⟩, ⟨0⟩⟩]) start = some s ∧
      s.step (.call .yield) = some s₁ ∧
      System.play State.step (turnOfSecond ⟨⟨0, 0⟩, ⟨0, 0, 0, 0⟩, ⟨0, 0, 0⟩, ⟨0⟩⟩) s₁ = some s₂ ∧
      s₂.taskReadyQueue = [4, 3] ∧ s₂.dispatches .cexec = [2] ∧ s.cexecPc.running = some 2 ∧
      System.shown State.step State.dispatches
        (turnOfSecond ⟨⟨0, 0⟩, ⟨0, 0, 0, 0⟩, ⟨0, 0, 0⟩, ⟨0⟩⟩) s₁ = [3] :=
    ⟨_, _, _, rfl, rfl, rfl, rfl, rfl, rfl, rfl⟩
  obtain ⟨s, s₁, s₂, hs, hyield, hs₂, hready, hnext, hrun, hshown⟩ := hplay
  have hst : system.Stretch State.dispatches s₁ _ s₂ :=
    System.Stretch.play (fun _ _ _ h => h) hs₂
  rw [hshown] at hst
  exact ⟨s, s₁, s₂, hs, hyield, hs₂, hready, hnext, round_robin
    (System.Reachable.play (fun _ _ _ h => h) (.start rfl) hs) hrun hyield hst
    (by decide) (hnext ▸ List.mem_singleton_self 2)⟩

end OsConcepts.Sut
