import OsConcepts.Lib.Fairness
import OsConcepts.Proofs.IoResults
import OsConcepts.Proofs.RoundRobin

/-!
# What every fair run comes to

A run is fair if neither executor is passed over for ever while it can go on, and
no task runs for ever without a call. A task on its way back to its code stands in
a line before one of the executors, or an executor has it; each place has a rank
that only drops, and it drops whenever the executor that has to move does.

Two executors that exit too early are what can come between: a task they leave
behind never runs again. So everything is said up to the first exit.
-/

namespace OsConcepts.Sut

open OsConcepts

variable {s s' : State} {l : Label} {t : Nat}

/-! ## Fair runs -/

/-- Who takes a step: `cexecScheduler`, the running task with a call, or
`iexecScheduler`. -/
inductive Turn where
  | cexec
  | task
  | iexec
  deriving DecidableEq

def Turn.kind : Turn → Label → Prop
  | .cexec, l => l = .cexec
  | .task, l => ∃ c, l = .call c
  | .iexec, l => ∃ rc, l = .iexec rc

/-- A step of the kind is possible. -/
def Turn.able (k : Turn) (s : State) : Prop := ∃ l s', k.kind l ∧ s.step l = some s'

/-- No one who can go on is passed over for ever. -/
def FairRun (r : system.Behavior) : Prop := ∀ k : Turn, r.Fair k.able k.kind

/-- An executor has reached `pthread_exit`. -/
def State.Stopped (s : State) : Prop := s.cexecPc = .exit ∨ s.iexecPc = .exit

/-- The task's own code runs, not a call of it. -/
def State.Runs (s : State) (t : Nat) : Prop := ∃ e, s.cexecPc = .run e t

/-- Who has to move when the compute executor's thread is to go on. -/
def CexecPc.turn : CexecPc → Turn
  | .run _ _ => .task
  | _ => .cexec

theorem CexecPc.kind_turn {pc : CexecPc} (h : pc.turn.kind l) :
    l = .cexec ∨ ∃ c, l = .call c := by
  cases pc <;> first | exact Or.inl h | exact Or.inr h

/-- Every pointer `cexecScheduler` goes through points at a record, so it goes on
until it exits, or the task it has switched to does. -/
theorem cexec_able (h : Core s) (hpc : s.cexecPc ≠ .exit) : s.cexecPc.turn.able s := by
  have hcur : ∀ e, s.cexecPc.held = some e → s.cexecCurrentRunningTask = some e :=
    fun _ he => h.current_eq he
  cases hpc' : s.cexecPc with
  | run e t =>
      exact ⟨.call .yield, _, ⟨.yield, rfl⟩, by rw [State.step, State.callStep, hpc']⟩
  | exit => exact absurd hpc' hpc
  | peek =>
      cases hhead : s.taskReadyQueue.head? with
      | none => exact ⟨.cexec, _, rfl, by rw [State.step, State.cexecStep, hpc', hhead]⟩
      | some e => exact ⟨.cexec, _, rfl, by rw [State.step, State.cexecStep, hpc', hhead]⟩
  | insert e =>
      by_cases htype : (s.record e).ioOperationType ≠ .noIoOpRequested
      · exact ⟨.cexec, _, rfl, by rw [State.step, State.cexecStep, hpc']; exact if_pos htype⟩
      · exact ⟨.cexec, _, rfl, by rw [State.step, State.cexecStep, hpc']; exact if_neg htype⟩
  | call e t body =>
      have hsome := hcur e (by rw [hpc']; rfl)
      obtain ⟨_ | ⟨a, assigns⟩, point⟩ := body
      · exact ⟨.cexec, _, rfl, by rw [State.step, State.cexecStep, hpc', hsome]; rfl⟩
      · exact ⟨.cexec, _, rfl, by rw [State.step, State.cexecStep, hpc', hsome]; rfl⟩
  | swap e | result e _ _ | afterSwap e =>
      have hsome := hcur e (by rw [hpc']; rfl)
      exact ⟨.cexec, _, rfl, by rw [State.step, State.cexecStep, hpc', hsome]; rfl⟩
  | _ => exact ⟨.cexec, _, rfl, by rw [State.step, State.cexecStep, hpc']⟩

theorem iexec_step (hpc : s.iexecPc ≠ .exit) (rc : Int) : ∃ s', s.step (.iexec rc) = some s' := by
  cases hpc' : s.iexecPc with
  | exit => exact absurd hpc' hpc
  | peek =>
      cases hhead : s.waitQueue.head? with
      | none => exact ⟨_, by rw [State.step, State.iexecStep, hpc', hhead]⟩
      | some e => exact ⟨_, by rw [State.step, State.iexecStep, hpc', hhead]⟩
  | _ => exact ⟨_, by rw [State.step, State.iexecStep, hpc']⟩

theorem iexec_able (hpc : s.iexecPc ≠ .exit) : Turn.iexec.able s := by
  obtain ⟨s', hstep⟩ := iexec_step hpc 0
  exact ⟨.iexec 0, s', ⟨0, rfl⟩, hstep⟩

/-- Neither executor is ever stuck: until it exits, `cexecScheduler` has a step, or
the task it has switched to may make any call, the global of the current task
pointing at that task's own record; and `iexecScheduler` has a step whatever its
system call returns. -/
theorem executors_go_on (h : system.Reachable s) :
    (s.cexecPc = .exit ∨ (∃ s', s.step .cexec = some s') ∨
      ∃ t, s.Runs t ∧ s.cexecCurrentRunningTask = some t ∧ (s.record t).context.task = t ∧
        ∀ c, ∃ s', s.step (.call c) = some s') ∧
    (s.iexecPc = .exit ∨ ∀ rc, ∃ s', s.step (.iexec rc) = some s') := by
  have hc := reachable_core h
  refine ⟨?_, ?_⟩
  · by_cases hexit : s.cexecPc = .exit
    · exact Or.inl hexit
    right
    by_cases hrun : ∃ e t, s.cexecPc = .run e t
    · obtain ⟨e, t, hpc⟩ := hrun
      have hheld : s.cexecPc.held = some e := by rw [hpc]; rfl
      obtain rfl : t = e := hc.task_eq hheld (by rw [hpc]; rfl)
      refine Or.inr ⟨t, ⟨t, hpc⟩, hc.current_eq hheld, hc.context t (hc.held_created hheld), ?_⟩
      intro c
      rw [State.step, State.callStep, hpc]
      exact ⟨_, rfl⟩
    · obtain ⟨l, s', hkind, hstep⟩ := cexec_able hc hexit
      have hturn : s.cexecPc.turn = .cexec := by
        cases hpc : s.cexecPc with
        | run e t => exact absurd ⟨e, t, hpc⟩ hrun
        | _ => rfl
      rw [hturn] at hkind
      obtain rfl := hkind
      exact Or.inl ⟨s', hstep⟩
  · by_cases hexit : s.iexecPc = .exit
    · exact Or.inl hexit
    · exact Or.inr (iexec_step hexit)

/-- Whoever else moves, `cexecScheduler` stays where it is. -/
theorem cexecPc_kept (hstep : s.step l = some s') (h : ¬ s.cexecPc.turn.kind l) :
    s'.cexecPc = s.cexecPc := by
  cases steps_of_step hstep with
  | call hpc => exact absurd ⟨_, rfl⟩ (hpc ▸ h)
  | peek hpc | setCurrent hpc | pop hpc | swap hpc | assign hpc | switch hpc | result hpc
  | active hpc | finished hpc | insertWait hpc | insertReady hpc | cexecClear hpc =>
      exact absurd rfl (hpc ▸ h)
  | cexecIdle hidle =>
      cases hidle with
      | empty hpc | bothEmpty hpc | notEmpty hpc | isShutdown hpc | cexecNull hpc
      | iexecNull hpc | failed hpc => exact absurd rfl (hpc ▸ h)
  | _ => rfl

theorem iexecPc_kept (hstep : s.step l = some s') (h : ¬ Turn.iexec.kind l) :
    s'.iexecPc = s.iexecPc := by
  cases steps_of_step hstep with
  | iexecPeek | iexecSetCurrent | iexecPop | serve | reset | iexecInsert | iexecIdle
  | iexecClear => exact absurd ⟨_, rfl⟩ h
  | _ => rfl

/-! ## The line for the processor -/

/-- How far `cexecScheduler` is from its next pop, when there is a task to pop. -/
def CexecPc.distance : CexecPc → Nat
  | .swap _ | .exit => 0
  | .pop _ => 1
  | .setCurrent _ => 2
  | .peek => 3
  | .clear => 4
  | .insert _ | .test .iexec _ => 5
  | .afterSwap _ | .test .cexec _ => 6
  | .test .isShutdown _ => 7
  | .snapshot => 8
  | .call _ _ body => 7 + body.assigns.length
  | .run _ _ => 12
  | .result _ _ _ => 13

/-- The task whose context was switched to and whose code runs, or will as soon as
its call has returned. -/
def CexecPc.switched : CexecPc → Option Nat
  | .run _ t | .result _ t _ => some t
  | _ => none

theorem length_body_le (c : Call) : c.body.assigns.length ≤ 4 := by
  cases c with
  | yield => exact Nat.zero_le 4
  | exit => exact Nat.le_of_ble_eq_true rfl
  | io r => cases r <;> exact Nat.le_of_ble_eq_true rfl

/-- While a task is waiting, each step takes `cexecScheduler` nearer to a pop. -/
theorem distance_step (hready : s.taskReadyQueue ≠ []) (hpc : ∀ e, s.cexecPc ≠ .swap e)
    (hturn : s.cexecPc.turn.kind l) (hstep : s.step l = some s') :
    s'.cexecPc = .exit ∨ s'.cexecPc.distance < s.cexecPc.distance := by
  cases steps_of_step hstep with
  | @call e t c hrun =>
      right
      rw [hrun]
      exact Nat.lt_succ_of_le (Nat.add_le_add_left (length_body_le c) 7)
  | swap hswap => exact absurd hswap (hpc _)
  | @assign e t c a assigns point hcall =>
      right
      rw [hcall]
      exact Nat.lt_succ_self _
  | peek hat | setCurrent hat | pop hat | switch hat | result hat | active hat | finished hat
  | insertWait hat | insertReady hat | cexecClear hat =>
      right
      rw [hat]
      dsimp only [CexecPc.distance, List.length_nil]
      omega
  | cexecIdle hidle =>
      cases hidle with
      | empty _ hnil => exact absurd hnil hready
      | bothEmpty _ hnil => exact absurd hnil hready
      | iexecNull => exact Or.inl rfl
      | notEmpty hat | isShutdown hat | cexecNull hat =>
          right
          rw [hat]
          dsimp only [CexecPc.distance]
          omega
      | @failed f n hat =>
          right
          rw [hat]
          cases f <;> dsimp only [CexecPc.distance] <;> omega
  | initCexec | initIexec | mainCreate | shutdown | create | iexecPeek | iexecSetCurrent | iexecPop
  | serve | reset | iexecInsert | iexecIdle | iexecClear =>
      obtain h | ⟨c, h⟩ := CexecPc.kind_turn hturn <;> cases h

/-- The task is in the line for the processor. -/
def State.InLine (s : State) (t : Nat) : Prop := t ∈ s.upcoming ∧ s.cexecPc ≠ .exit

theorem popped_nil {pc : CexecPc} (h : ∀ e, pc ≠ .swap e) : pc.popped = [] := by
  cases pc with
  | swap e => exact absurd rfl (h e)
  | _ => rfl

theorem dispatches_nil (h : ∀ e, s.cexecPc = .swap e → l ≠ .cexec) : s.dispatches l = [] := by
  cases l with
  | cexec =>
      unfold State.dispatches
      cases hpc : s.cexecPc with
      | swap e => exact absurd rfl (h e hpc)
      | _ => rfl
  | _ => rfl

/-- The task at the head gets the processor, and those behind it come nearer. -/
theorem swap_step (hc : Core s) (ht : t ∈ s.upcoming) {e : Nat} (hpc : s.cexecPc = .swap e)
    (hstep : s.step .cexec = some s') :
    s'.cexecPc.switched = some t ∨
      (t ∈ s'.upcoming ∧ s'.upcoming.idxOf t + 1 = s.upcoming.idxOf t) ∧
        s'.cexecPc ≠ .exit ∧ s'.cexecPc.distance ≤ 13 := by
  obtain ⟨joined, hjoined⟩ := step_upcoming hc hstep
  rw [dispatches_swap hc hpc] at hjoined
  have hheld : s.cexecPc.held = some e := by rw [hpc]; rfl
  cases steps_of_step hstep with
  | @swap e' c hpc' hcur =>
      obtain rfl := hc.current_unique hheld hcur
      obtain rfl := CexecPc.swap.inj (hpc.symm.trans hpc')
      by_cases heq : e = t
      · left
        have htask := hc.context e (hc.held_created hheld)
        dsimp only [State.resume]
        split <;> exact congrArg some (htask.trans heq)
      · refine Or.inr ⟨System.place_nearer hjoined ht heq, ?_⟩
        dsimp only [State.resume]
        split <;> exact ⟨nofun, Nat.le_of_ble_eq_true rfl⟩
  | peek hat | setCurrent hat | pop hat | assign hat | switch hat | result hat | active hat
  | finished hat | insertWait hat | insertReady hat | cexecClear hat => cases hpc.symm.trans hat
  | cexecIdle hidle => cases hidle.held.1.symm.trans hheld

/-- A task in the line is switched to, unless an executor stops. -/
theorem inLine_switched {r : system.Behavior} (hfair : FairRun r) (t : Nat) :
    r.LeadsTo (fun s => s.InLine t) fun s => s.cexecPc.switched = some t ∨ s.Stopped := by
  refine System.Behavior.LeadsTo.of_rank (fun s => s.upcoming.idxOf t * 14 + s.cexecPc.distance)
    (fun s => s.cexecPc.turn) hfair
    (fun s hs ⟨_, hpc⟩ => cexec_able (reachable_core hs) hpc) ?_
  intro s l s' hs ⟨ht, hpc⟩ hstep
  have hc := reachable_core hs
  by_cases hswap : ∃ e, s.cexecPc = .swap e ∧ l = .cexec
  · obtain ⟨e, he, rfl⟩ := hswap
    rcases swap_step hc ht he hstep with hrun | ⟨⟨hmem, hidx⟩, hexit, hdist⟩
    · exact Or.inl (Or.inl hrun)
    · refine Or.inr ⟨⟨hmem, hexit⟩, Or.inl ?_⟩
      dsimp only
      omega
  · have hnone : s.dispatches l = [] := dispatches_nil fun e he hl => hswap ⟨e, he, hl⟩
    obtain ⟨joined, hjoined⟩ := step_upcoming hc hstep
    rw [hnone] at hjoined
    obtain ⟨hmem, hidx⟩ := System.place_kept hjoined ht
    by_cases hturn : s.cexecPc.turn.kind l
    · have hpop : ∀ e, s.cexecPc ≠ .swap e := by
        intro e he
        rw [he] at hturn
        exact hswap ⟨e, he, hturn⟩
      have hready : s.taskReadyQueue ≠ [] := by
        rw [State.upcoming, popped_nil hpop] at ht
        exact List.ne_nil_of_mem ht
      rcases distance_step hready hpop hturn hstep with hexit | hless
      · exact Or.inl (Or.inr (Or.inl hexit))
      · by_cases hexit : s'.cexecPc = .exit
        · exact Or.inl (Or.inr (Or.inl hexit))
        · refine Or.inr ⟨⟨hmem, hexit⟩, Or.inl ?_⟩
          dsimp only
          rw [hidx]
          exact Nat.add_lt_add_left hless _
    · have hsame := cexecPc_kept hstep hturn
      exact Or.inr ⟨⟨hmem, hsame ▸ hpc⟩, Or.inr ⟨by dsimp only; rw [hidx, hsame],
        congrArg CexecPc.turn hsame, hturn⟩⟩

/-- A task that was switched to comes to run, its call having returned. -/
theorem switched_runs {r : system.Behavior} (hfair : FairRun r) (t : Nat) :
    r.LeadsTo (fun s => s.cexecPc.switched = some t) fun s => s.Runs t := by
  refine System.Behavior.LeadsTo.trans_or (Q := fun s => ∃ e point, s.cexecPc = .result e t point)
    (.of_imp fun s _ hs => ?_) ?_
  · cases hpc : s.cexecPc with
    | run e i => exact Or.inr ⟨e, by rw [hpc] at hs; rw [← Option.some.inj hs]; exact hpc⟩
    | result e i point =>
        exact Or.inl ⟨e, point, by rw [hpc] at hs; rw [← Option.some.inj hs]⟩
    | _ =>
        rw [hpc] at hs
        cases hs
  · refine System.Behavior.LeadsTo.of_rank (fun _ => 0) (fun _ => Turn.cexec)
      hfair (fun s hs ⟨e, point, hpc⟩ => ?_) ?_
    · have := cexec_able (reachable_core hs) (by rw [hpc]; exact nofun)
      rw [hpc] at this
      exact this
    · intro s l s' hs ⟨e, point, hpc⟩ hstep
      by_cases hl : l = .cexec
      · obtain rfl := hl
        cases steps_of_step hstep with
        | @result e' i c point' hpc' hcur =>
            obtain ⟨rfl, rfl, rfl⟩ := CexecPc.result.inj (hpc.symm.trans hpc')
            exact Or.inl ⟨e, rfl⟩
        | peek hat | setCurrent hat | pop hat | swap hat | assign hat | switch hat | active hat
        | finished hat | insertWait hat | insertReady hat | cexecClear hat =>
            cases hpc.symm.trans hat
        | cexecIdle hidle =>
            cases hidle.held.1.symm.trans (congrArg CexecPc.held hpc)
      · refine Or.inr ⟨⟨e, point, ?_⟩, Or.inr ⟨rfl, rfl, hl⟩⟩
        rw [cexecPc_kept hstep (by rw [hpc]; exact hl), hpc]

/-! ## The line for the I/O executor -/

/-- How far `iexecScheduler` is from its next system call, when there is a task to
serve. -/
def IexecPc.distance : IexecPc → Nat
  | .serve _ | .exit => 0
  | .pop _ => 1
  | .setCurrent _ => 2
  | .peek => 3
  | .clear => 4
  | .insert _ | .test .iexec _ => 5
  | .reset _ | .test .cexec _ => 6
  | .test .isShutdown _ => 7
  | .snapshot => 8

namespace State

variable (s : State)

/-- The task a step makes a system call for. -/
def serves : Label → List Nat
  | .iexec _ => s.unserved
  | _ => []

/-- The tasks in the order they are served. -/
def waiting : List Nat := s.unserved ++ s.waitQueue

/-- The task is in the line for the I/O executor. -/
def InWaitLine (t : Nat) : Prop := t ∈ s.waiting ∧ s.iexecPc ≠ .exit

end State

theorem IexecIdle.unserved {pc : IexecPc} (h : IexecIdle s pc) :
    s.unserved = [] ∧ ({ s with iexecPc := pc } : State).unserved = [] := by
  obtain ⟨hold, hnew, -, -⟩ := h.held
  exact ⟨unserved_of_not_held hold, unserved_of_not_held hnew⟩

/-- Steps of `iexecScheduler` that serve no task and pop none, as far as the line
can tell. -/
theorem waiting_moved {rc : Int} (hold : s.unserved = []) (hnew : s'.unserved = [])
    (hwait : s'.waitQueue = s.waitQueue) :
    ∃ joined, s.serves (.iexec rc) ++ s'.waiting = s.waiting ++ joined := by
  refine ⟨[], ?_⟩
  rw [State.serves, State.waiting, State.waiting, hold, hnew, hwait, List.append_nil]
  rfl

theorem step_waiting (hc : Core s) (hstep : s.step l = some s') :
    ∃ joined, s.serves l ++ s'.waiting = s.waiting ++ joined := by
  cases steps_of_step hstep with
  | @insertWait e hpc =>
      refine ⟨[e], ?_⟩
      show s.unserved ++ (s.waitQueue ++ [e]) = s.unserved ++ s.waitQueue ++ [e]
      rw [List.append_assoc]
  | @iexecPop e rc hpc =>
      obtain ⟨rest, hwait⟩ := List.head?_eq_some_iff.mp (hc.iexecPeeked e (by rw [hpc]; rfl))
      have hnone : s.unserved = [] := unserved_of_not_held (by rw [hpc]; rfl)
      refine ⟨[], ?_⟩
      rw [State.serves, State.waiting, State.waiting, hnone, hwait]
      exact (List.append_nil _).symm
  | serve => exact ⟨[], (List.append_nil _).symm⟩
  | iexecPeek hpc | iexecSetCurrent hpc | reset hpc | iexecInsert hpc | iexecClear hpc =>
      exact waiting_moved (by rw [State.unserved, hpc]) rfl rfl
  | iexecIdle hidle => exact waiting_moved hidle.unserved.1 hidle.unserved.2 rfl
  | _ => exact ⟨[], (List.append_nil _).symm⟩

theorem serve_step {e : Nat} {rc : Int} (hpc : s.iexecPc = .serve e)
    (hstep : s.step (.iexec rc) = some s') : s'.iexecPc = .reset e := by
  rw [State.step, State.iexecStep, hpc] at hstep
  obtain rfl := Option.some.inj hstep
  rfl

/-- While a task is waiting, each step takes `iexecScheduler` nearer to serving. -/
theorem iexec_distance_step (hwait : s.waitQueue ≠ []) (hpc : ∀ e, s.iexecPc ≠ .serve e)
    {rc : Int} (hstep : s.step (.iexec rc) = some s') :
    s'.iexecPc = .exit ∨ s'.iexecPc.distance < s.iexecPc.distance := by
  cases steps_of_step hstep with
  | serve hserve => exact absurd hserve (hpc _)
  | iexecPeek hat | iexecSetCurrent hat | iexecPop hat | reset hat | iexecInsert hat
  | iexecClear hat =>
      right
      rw [hat]
      dsimp only [IexecPc.distance]
      omega
  | iexecIdle hidle =>
      cases hidle with
      | empty _ hnil => exact absurd hnil hwait
      | bothEmpty _ _ hnil => exact absurd hnil hwait
      | iexecNull => exact Or.inl rfl
      | notEmpty hat | isShutdown hat | cexecNull hat =>
          right
          rw [hat]
          dsimp only [IexecPc.distance]
          omega
      | @failed f n hat =>
          right
          rw [hat]
          cases f <;> dsimp only [IexecPc.distance] <;> omega

/-- A task in the line is served, unless `iexecScheduler` stops. -/
theorem inWaitLine_served {r : system.Behavior} (hfair : FairRun r) (t : Nat) :
    r.LeadsTo (fun s => s.InWaitLine t) fun s => s.iexecPc = .reset t ∨ s.Stopped := by
  refine System.Behavior.LeadsTo.of_rank (fun s => s.waiting.idxOf t * 9 + s.iexecPc.distance)
    (fun _ => Turn.iexec) hfair
    (fun s _ h => iexec_able h.2) ?_
  rintro s l s' hs ⟨ht, hpc⟩ hstep
  have hc := reachable_core hs
  obtain ⟨joined, hjoined⟩ := step_waiting hc hstep
  by_cases hturn : Turn.iexec.kind l
  · obtain ⟨rc, rfl⟩ := hturn
    by_cases hserve : ∃ e, s.iexecPc = .serve e
    · obtain ⟨e, he⟩ := hserve
      have hnext : s'.iexecPc = .reset e := serve_step he hstep
      by_cases heq : e = t
      · exact Or.inl (Or.inl (heq ▸ hnext))
      · have hone : s.serves (.iexec rc) = [e] := by rw [State.serves, State.unserved, he]
        rw [hone] at hjoined
        obtain ⟨hmem, hidx⟩ := System.place_nearer hjoined ht heq
        have hgoes : s'.iexecPc ≠ .exit := fun hexit => by cases hnext.symm.trans hexit
        refine Or.inr ⟨⟨hmem, hgoes⟩, Or.inl ?_⟩
        dsimp only
        rw [hnext]
        dsimp only [IexecPc.distance]
        omega
    · have hserve : ∀ e, s.iexecPc ≠ .serve e := fun e he => hserve ⟨e, he⟩
      have hnone : s.unserved = [] := by
        unfold State.unserved
        split
        · next e he => exact absurd he (hserve e)
        · rfl
      have hwait : s.waitQueue ≠ [] := by
        rw [State.waiting, hnone] at ht
        exact List.ne_nil_of_mem ht
      rw [State.serves, hnone] at hjoined
      obtain ⟨hmem, hidx⟩ := System.place_kept hjoined ht
      rcases iexec_distance_step hwait hserve hstep with hexit | hless
      · exact Or.inl (Or.inr (Or.inr hexit))
      · by_cases hexit : s'.iexecPc = .exit
        · exact Or.inl (Or.inr (Or.inr hexit))
        · refine Or.inr ⟨⟨hmem, hexit⟩, Or.inl ?_⟩
          dsimp only
          rw [hidx]
          exact Nat.add_lt_add_left hless _
  · have hnone : s.serves l = [] := by
      cases l with
      | iexec rc => exact absurd ⟨rc, rfl⟩ hturn
      | _ => rfl
    rw [hnone] at hjoined
    obtain ⟨hmem, hidx⟩ := System.place_kept hjoined ht
    have hsame := iexecPc_kept hstep hturn
    refine Or.inr ⟨⟨hmem, hsame ▸ hpc⟩, Or.inr ⟨?_, rfl, hturn⟩⟩
    dsimp only
    rw [hidx, hsame]

/-- A task that was served gets in the line for the processor. -/
theorem served_inLine {r : system.Behavior} (hfair : FairRun r) (t : Nat) :
    r.LeadsTo (fun s => s.iexecPc = .reset t ∨ s.iexecPc = .insert t)
      fun s => s.InLine t ∨ s.Stopped := by
  refine System.Behavior.LeadsTo.of_rank (fun s => s.iexecPc.distance)
    (fun _ => Turn.iexec) hfair
    (fun s _ hpc => iexec_able (by rcases hpc with hpc | hpc <;> rw [hpc] <;> exact nofun)) ?_
  intro s l s' _ hpc hstep
  by_cases hturn : Turn.iexec.kind l
  · obtain ⟨rc, rfl⟩ := hturn
    have hnext : s.step (.iexec rc) = some s' := hstep
    rcases hpc with hpc | hpc <;> rw [State.step, State.iexecStep, hpc] at hnext <;>
      obtain rfl := Option.some.inj hnext
    · refine Or.inr ⟨Or.inr rfl, Or.inl ?_⟩
      show IexecPc.distance (.insert t) < s.iexecPc.distance
      rw [hpc]
      exact Nat.lt_succ_self 5
    · left
      by_cases hexit : s.cexecPc = .exit
      · exact Or.inr (Or.inl hexit)
      · exact Or.inl ⟨List.mem_append_right _ (List.mem_append_right _ (List.mem_singleton_self t)),
          hexit⟩
  · have hsame := iexecPc_kept hstep hturn
    refine Or.inr ⟨?_, Or.inr ⟨congrArg IexecPc.distance hsame, rfl, hturn⟩⟩
    show s'.iexecPc = .reset t ∨ s'.iexecPc = .insert t
    rw [hsame]
    exact hpc

/-! ## A task that goes on -/

/-- Created, and neither has the task executed `sut_exit` nor does it execute it. -/
def State.Stays (s : State) (t : Nat) : Prop :=
  t ∈ s.created ∧ (s.after t).isTaskActive = true

theorem apply_isTaskActive {r r' : QueueEntry} (h : r.isTaskActive = r'.isTaskActive)
    (as : List Assign) : (as.foldl Assign.apply r).isTaskActive
      = (as.foldl Assign.apply r').isTaskActive := by
  induction as generalizing r r' with
  | nil => exact h
  | cons a as ih =>
      refine ih ?_
      cases a with
      | isTaskActive => rfl
      | _ => exact h

/-- The assignments of every call but `sut_exit` leave the task active. -/
theorem body_isTaskActive {c : Call} (hexit : c ≠ .exit) (r : QueueEntry) :
    (c.body.assigns.foldl Assign.apply r).isTaskActive = r.isTaskActive := by
  cases c with
  | yield => rfl
  | exit => exact absurd rfl hexit
  | io req => cases req <;> rfl

/-- Steps that leave a record as active as it was, and begin and end no call. -/
theorem after_same (hrest : s'.cexecPc.rest t = s.cexecPc.rest t)
    (hrec : (s'.record t).isTaskActive = (s.record t).isTaskActive) :
    (s'.after t).isTaskActive = (s.after t).isTaskActive := by
  rw [State.after, State.after, hrest, apply_isTaskActive hrec]

/-- Whether a task goes on changes with its own `sut_exit` only. -/
theorem after_step (hc : Core s) (hmem : t ∈ s.created) (hstep : s.step l = some s')
    (hexit : ¬ (s.Runs t ∧ l = .call .exit)) :
    (s'.after t).isTaskActive = (s.after t).isTaskActive := by
  cases steps_of_step hstep with
  | mainCreate | create =>
      have hrec : ∀ junk, (s.sutCreate junk).record t = s.record t := fun junk =>
        record_setRecord_ne s _ fun heq => malloced_not_created hc (heq ▸ hmem)
      exact after_same rfl (congrArg QueueEntry.isTaskActive (hrec _))
  | @call e i c hpc =>
      rw [State.after, State.after, hpc]
      by_cases hi : i = t
      · have hne : c ≠ .exit := fun heq => hexit ⟨⟨e, hi ▸ hpc⟩, heq ▸ rfl⟩
        simp only [CexecPc.rest, if_pos hi]
        exact body_isTaskActive hne _
      · simp only [CexecPc.rest, if_neg hi]
  | peek hpc | setCurrent hpc | pop hpc | active hpc | finished hpc | cexecClear hpc
  | result hpc | insertWait hpc | insertReady hpc => exact after_same (by rw [hpc]; rfl) rfl
  | @swap e c hpc hcur =>
      refine after_same ?_ rfl
      rw [hpc, State.resume]
      split <;> rfl
  | cexecIdle hidle => exact after_same (hidle.rest t) rfl
  | @assign e i c a assigns point hpc hcur =>
      have hheld : s.cexecPc.held = some e := by rw [hpc]; rfl
      obtain rfl := hc.current_unique hheld hcur
      have hi : i = e := hc.task_eq hheld (by rw [hpc]; rfl)
      rw [State.after, State.after, hpc]
      by_cases ht : i = t
      · have hself : (s.setRecord e (a.apply (s.record e))).record t = a.apply (s.record t) := by
          rw [← ht, hi]
          exact record_setRecord_self s e _
        simp only [CexecPc.rest, if_pos ht, List.foldl_cons]
        rw [hself]
      · simp only [CexecPc.rest, if_neg ht, List.foldl_nil]
        rw [record_setRecord_ne s _ fun heq => ht (hi.trans heq.symm)]
  | @switch e i c point hpc hcur =>
      refine after_same ?_ (field_setRecord QueueEntry.isTaskActive (by rfl) t)
      rw [hpc]
      show [] = if i = t then [] else []
      rw [ite_self]
  | @serve e rc hpc =>
      exact after_same rfl (field_setRecord QueueEntry.isTaskActive (answer_isTaskActive _ rc) t)
  | reset hpc => exact after_same rfl (field_setRecord QueueEntry.isTaskActive (by rfl) t)
  | _ => exact after_same rfl rfl

/-- Only its own `sut_exit` ends a task. -/
theorem stays_step (hc : Core s) (h : s.Stays t) (hstep : s.step l = some s')
    (hexit : ¬ (s.Runs t ∧ l = .call .exit)) : s'.Stays t :=
  ⟨created_step hstep h.1, (after_step hc h.1 hstep hexit).trans h.2⟩

/-- The task is between the start of a call and its insertion in a queue. -/
def State.Leaves (s : State) (t : Nat) : Prop :=
  s.cexecPc.held = some t ∧ s.cexecPc.resumed ≠ some t

theorem leaves_kept (h : s.Leaves t) (hpc : s'.cexecPc = s.cexecPc) : s'.Leaves t := by
  rw [State.Leaves, hpc]
  exact h

/-- A call that is no `sut_exit` brings its task to the end of a line. -/
theorem leaves_inLine {r : system.Behavior} (hfair : FairRun r) (t : Nat) :
    r.LeadsTo (fun s => s.Stays t ∧ s.Leaves t)
      fun s => s.InLine t ∨ s.InWaitLine t ∨ s.Stopped := by
  refine System.Behavior.LeadsTo.of_rank (fun s => s.cexecPc.distance)
    (fun _ => Turn.cexec) hfair (fun s hs h => ?_) ?_
  · obtain ⟨-, hheld, hnot⟩ := h
    have hable := cexec_able (reachable_core hs) (by intro hpc; rw [hpc] at hheld; cases hheld)
    cases hpc : s.cexecPc <;> rw [hpc] at hable hheld hnot <;>
      first | exact hable | exact absurd hheld hnot
  rintro s l s' hs ⟨hstays, hleaves⟩ hstep
  have hc := reachable_core hs
  obtain ⟨hheld, hnot⟩ := hleaves
  have hstays' : s'.Stays t := by
    refine stays_step hc hstays hstep fun hexit => hnot ?_
    obtain ⟨⟨e, hpc⟩, -⟩ := hexit
    rw [hpc] at hheld ⊢
    exact hheld
  by_cases hl : l = .cexec
  · obtain rfl := hl
    cases steps_of_step hstep with
    | peek hpc | setCurrent hpc | pop hpc | cexecClear hpc =>
        rw [hpc] at hheld
        cases hheld
    | swap hpc | result hpc =>
        rw [hpc] at hheld hnot
        exact absurd hheld hnot
    | @assign e i c a assigns point hpc hcur =>
        rw [hpc] at hheld
        refine Or.inr ⟨⟨hstays', hheld, (Option.some_ne_none t).symm⟩, Or.inl ?_⟩
        dsimp only
        rw [hpc]
        exact Nat.lt_succ_self _
    | @switch e i c point hpc hcur =>
        rw [hpc] at hheld
        refine Or.inr ⟨⟨hstays', hheld, (Option.some_ne_none t).symm⟩, Or.inl ?_⟩
        dsimp only
        rw [hpc]
        exact Nat.lt_succ_self _
    | @active e c hpc hcur hactive =>
        rw [hpc] at hheld
        refine Or.inr ⟨⟨hstays', hheld, (Option.some_ne_none t).symm⟩, Or.inl ?_⟩
        dsimp only
        rw [hpc]
        exact Nat.lt_succ_self _
    | @finished e c hpc hcur hexited =>
        have hactive := hstays.2
        obtain rfl := hc.current_unique hheld hcur
        rw [State.after, hpc] at hactive
        cases hactive.symm.trans hexited
    | @insertWait e hpc htype =>
        left
        by_cases hexit : s.iexecPc = .exit
        · exact Or.inr (Or.inr (Or.inr hexit))
        · rw [hpc] at hheld
          obtain rfl := Option.some.inj hheld
          exact Or.inr (Or.inl ⟨List.mem_append_right _ (List.mem_append_right _
            (List.mem_singleton_self e)), hexit⟩)
    | @insertReady e hpc htype =>
        left
        rw [hpc] at hheld
        obtain rfl := Option.some.inj hheld
        refine Or.inl ⟨List.mem_append_right _ (List.mem_append_right _
          (List.mem_singleton_self e)), fun hexit => ?_⟩
        cases hexit
    | cexecIdle hidle => cases hidle.held.1.symm.trans hheld
  · have hturn : ¬ s.cexecPc.turn.kind l := by
      cases hpc : s.cexecPc <;> rw [hpc] at hheld hnot <;>
        first | exact hl | exact absurd hheld hnot
    have hsame := cexecPc_kept hstep hturn
    exact Or.inr ⟨⟨hstays', leaves_kept ⟨hheld, hnot⟩ hsame⟩,
      Or.inr ⟨congrArg CexecPc.distance hsame, rfl, hl⟩⟩

/-- Where a task that goes on can be. -/
theorem where_stays (hc : Core s) (h : s.Stays t) :
    s.InLine t ∨ s.InWaitLine t ∨ (s.iexecPc = .reset t ∨ s.iexecPc = .insert t) ∨
      s.Leaves t ∨ s.cexecPc.switched = some t ∨ s.Stopped := by
  by_cases hcexit : s.cexecPc = .exit
  · exact Or.inr (Or.inr (Or.inr (Or.inr (Or.inr (Or.inl hcexit)))))
  by_cases hiexit : s.iexecPc = .exit
  · exact Or.inr (Or.inr (Or.inr (Or.inr (Or.inr (Or.inr hiexit)))))
  by_cases hheld : s.cexecPc.held = some t
  · by_cases hresumed : s.cexecPc.resumed = some t
    · have hrun := hc.running
      cases hpc : s.cexecPc with
      | swap e =>
          rw [hpc] at hheld
          refine Or.inl ⟨?_, hcexit⟩
          rw [State.upcoming, hpc, Option.some.inj hheld]
          exact List.mem_append_left _ (List.mem_singleton_self t)
      | run e i | result e i point =>
          rw [hpc] at hheld hrun
          exact Or.inr (Or.inr (Or.inr (Or.inr (Or.inl ((hrun i rfl).symm.trans hheld)))))
      | _ =>
          rw [hpc] at hresumed
          cases hresumed
    · exact Or.inr (Or.inr (Or.inr (Or.inl ⟨hheld, hresumed⟩)))
  · -- No call of the task is under way, so its record is active.
    have hlive : s.Live t := by
      refine ⟨h.1, ?_⟩
      have hactive := h.2
      rw [State.after, CexecPc.rest_of_not_running fun hrun => hheld (hc.running t hrun)] at hactive
      exact hactive
    have hmem : t ∈ s.places := by
      refine List.count_pos_iff.mp ?_
      rw [hc.places t, if_pos hlive]
      exact Nat.zero_lt_one
    rcases List.mem_append.mp hmem with hmem | hiexec
    · rcases List.mem_append.mp hmem with hmem | hcexec
      · rcases List.mem_append.mp hmem with hready | hwait
        · exact Or.inl ⟨List.mem_append_right _ hready, hcexit⟩
        · exact Or.inr (Or.inl ⟨List.mem_append_right _ hwait, hiexit⟩)
      · have hsome := Option.mem_toList.mp (List.mem_filter.mp hcexec).1
        exact absurd hsome hheld
    · have hsome : s.iexecPc.held = some t := Option.mem_toList.mp hiexec
      cases hpc : s.iexecPc with
      | serve e =>
          rw [hpc] at hsome
          refine Or.inr (Or.inl ⟨List.mem_append_left _ ?_, hiexit⟩)
          rw [State.unserved, hpc, Option.some.inj hsome]
          exact List.mem_singleton_self t
      | reset e =>
          rw [hpc] at hsome
          exact Or.inr (Or.inr (Or.inl (Or.inl (congrArg IexecPc.reset (Option.some.inj hsome)))))
      | insert e =>
          rw [hpc] at hsome
          exact Or.inr (Or.inr (Or.inl (Or.inr (congrArg IexecPc.insert (Option.some.inj hsome)))))
      | _ =>
          rw [hpc] at hsome
          cases hsome

/-- A task that goes on runs again, unless an executor stops. -/
theorem stays_runs {r : system.Behavior} (hfair : FairRun r) (t : Nat) :
    r.LeadsTo (fun s => s.Stays t) fun s => s.Runs t ∨ s.Stopped := by
  have hstopped : r.LeadsTo State.Stopped fun s => s.Runs t ∨ s.Stopped :=
    .of_imp fun _ _ hs => Or.inr hs
  have hswitched : r.LeadsTo (fun s => s.cexecPc.switched = some t)
      fun s => s.Runs t ∨ s.Stopped :=
    (switched_runs hfair t).trans (.of_imp fun _ _ hs => Or.inl hs)
  have hline : r.LeadsTo (fun s => s.InLine t) fun s => s.Runs t ∨ s.Stopped :=
    (inLine_switched hfair t).trans (hswitched.or hstopped)
  have hserved : r.LeadsTo (fun s => s.iexecPc = .reset t ∨ s.iexecPc = .insert t)
      fun s => s.Runs t ∨ s.Stopped := (served_inLine hfair t).trans (hline.or hstopped)
  have hreset : r.LeadsTo (fun s => s.iexecPc = .reset t) fun s => s.Runs t ∨ s.Stopped :=
    fun n hn => hserved n (Or.inl hn)
  have hwait : r.LeadsTo (fun s => s.InWaitLine t) fun s => s.Runs t ∨ s.Stopped :=
    (inWaitLine_served hfair t).trans (hreset.or hstopped)
  have hleaves : r.LeadsTo (fun s => s.Stays t ∧ s.Leaves t) fun s => s.Runs t ∨ s.Stopped :=
    (leaves_inLine hfair t).trans (hline.or (hwait.or hstopped))
  intro n hn
  rcases where_stays (reachable_core (r.reachable n)) hn with
    h | h | h | h | h | h
  · exact hline n h
  · exact hwait n h
  · exact hserved n h
  · exact hleaves n ⟨hn, h⟩
  · exact hswitched n h
  · exact hstopped n h

/-- No task starves: in a fair run a task that goes on comes to run its code again,
and all its I/O calls have been performed, unless an executor stops first. -/
theorem task_comes_back {r : system.Behavior} (hfair : FairRun r) {t n : Nat}
    (h : (r.state n).Stays t) : ∃ m, n ≤ m ∧ ((r.state m).Stopped ∨ (r.state m).Runs t ∧
      ((r.state m).callsOf t).map Request.operation
        = ((r.state m).servedOf t).map fun x => x.1.operation) := by
  obtain ⟨m, hle, ⟨e, hpc⟩ | hstopped⟩ := stays_runs hfair t n h
  · obtain ⟨⟨hc, ht⟩, -, hlog⟩ :=
      reachable_logged Request.operation (fun _ _ => rfl) (r.reachable m)
    exact ⟨m, hle, Or.inr ⟨⟨e, hpc⟩, hlog.run hc ht hpc⟩⟩
  · exact ⟨m, hle, Or.inl hstopped⟩

/-! ## A fair run -/

theorem not_able_of_exit (hcexec : s.cexecPc = .exit) (hiexec : s.iexecPc = .exit) (k : Turn) :
    ¬ k.able s := by
  rintro ⟨l, s', hkind, hstep⟩
  cases k with
  | cexec =>
      obtain rfl := hkind
      rw [State.step, State.cexecStep, hcexec] at hstep
      cases hstep
  | task =>
      obtain ⟨c, rfl⟩ := hkind
      rw [State.step, State.callStep, hcexec] at hstep
      cases hstep
  | iexec =>
      obtain ⟨rc, rfl⟩ := hkind
      rw [State.step, State.iexecStep, hiexec] at hstep
      cases hstep

/-- A run that ends with both executors gone is fair. -/
theorem fair_of_exit {as : List Label} (h : System.play State.step as start = some s)
    (hcexec : s.cexecPc = .exit) (hiexec : s.iexecPc = .exit) :
    FairRun (System.Behavior.ofPlay system State.step (fun _ _ _ h => h) as start s rfl h) :=
  fun k => System.Behavior.ofPlay_fair (not_able_of_exit hcexec hiexec k)

/-- A task opens a file and exits; then both executors exit. -/
def openAndExit : List Label :=
  firstTask ⟨⟨0, 0⟩, ⟨0, 0, 0, 0⟩, ⟨0, 0, 0⟩, ⟨0⟩⟩ ++ callSteps (.io (.openFile 100)) 2 ++
    serveSteps 3 ++ List.replicate 5 .cexec ++ callSteps .exit 1 ++ [.shutdown] ++
    List.replicate 4 .cexec ++ List.replicate 5 (.iexec 0)

/-- The task in `waitQueue` comes back. -/
theorem task_comes_back_open :
    ∃ r : system.Behavior, FairRun r ∧ (r.state 14).waitQueue = [2] ∧
      ∃ m, 14 ≤ m ∧ ((r.state m).Stopped ∨ (r.state m).Runs 2 ∧
        ((r.state m).callsOf 2).map Request.operation
          = ((r.state m).servedOf 2).map fun x => x.1.operation) := by
  have hplay : ∃ s, System.play State.step openAndExit start = some s ∧
      s.cexecPc = .exit ∧ s.iexecPc = .exit := ⟨_, rfl, rfl, rfl⟩
  obtain ⟨s, hs, hcexec, hiexec⟩ := hplay
  have hfair := fair_of_exit hs hcexec hiexec
  have hstays : (System.Behavior.visited State.step openAndExit start 14).Stays 2 :=
    ⟨List.mem_singleton_self 2, rfl⟩
  exact ⟨_, hfair, rfl, task_comes_back hfair hstays⟩

/-- After all steps of that run but the last both executors can still be asked. -/
theorem executors_go_on_open :
    ∃ s, System.play State.step (openAndExit.take 30) start = some s ∧
      s.cexecPc ≠ .exit ∧ s.iexecPc ≠ .exit ∧
      (s.cexecPc = .exit ∨ (∃ s', s.step .cexec = some s') ∨
        ∃ t, s.Runs t ∧ s.cexecCurrentRunningTask = some t ∧ (s.record t).context.task = t ∧
          ∀ c, ∃ s', s.step (.call c) = some s') ∧
      (s.iexecPc = .exit ∨ ∀ rc, ∃ s', s.step (.iexec rc) = some s') := by
  have hplay : ∃ s, System.play State.step (openAndExit.take 30) start = some s ∧
      s.cexecPc ≠ .exit ∧ s.iexecPc ≠ .exit := ⟨_, rfl, nofun, nofun⟩
  obtain ⟨s, hs, hcexec, hiexec⟩ := hplay
  exact ⟨s, hs, hcexec, hiexec,
    executors_go_on (System.Reachable.play (fun _ _ _ h => h) (.start rfl) hs)⟩

end OsConcepts.Sut
