import OsConcepts.Proofs.TaskPlaces

/-!
# What became of each I/O call

A task's calls and the system calls made for it are compared in the journals of
the run: what has been served is what was called, but for the last call while its
record still asks for it (`owed`). A comparison `f` says how closely the two
agree. `sut_close` puts its descriptor where `iexecScheduler` does not look for
it, so only comparisons that cannot tell the descriptors of two `close` agree in
every run.
-/

namespace OsConcepts.Sut

open OsConcepts

variable {s s' : State} {l : Label}

/-! ## What the records ask for -/

/-- The task `cexecScheduler` has switched to, or is about to. -/
def CexecPc.resumed : CexecPc → Option Nat
  | .swap e | .run e _ | .result e _ _ => some e
  | _ => none

/-- The queues and the executors by what the records ask for. -/
structure Typed (s : State) : Prop where
  fresh : ∀ t, t ∉ s.created → (s.record t).ioOperationType = .noIoOpRequested
  ready : ∀ t ∈ s.taskReadyQueue, (s.record t).ioOperationType = .noIoOpRequested
  wait : ∀ t ∈ s.waitQueue, (s.record t).ioOperationType ≠ .noIoOpRequested
  resumed : ∀ e, s.cexecPc.resumed = some e →
    (s.record e).ioOperationType = .noIoOpRequested
  serve : ∀ e, s.iexecPc = .serve e → (s.record e).ioOperationType ≠ .noIoOpRequested
  insert : ∀ e, s.iexecPc = .insert e → (s.record e).ioOperationType = .noIoOpRequested

theorem Typed.start : Typed start where
  fresh _ _ := rfl
  ready _ h := absurd h List.not_mem_nil
  wait _ h := absurd h List.not_mem_nil
  resumed _ h := by cases h
  serve _ h := by cases h
  insert _ h := by cases h

theorem CexecPc.held_of_resumed {pc : CexecPc} {e : Nat} (h : pc.resumed = some e) :
    pc.held = some e := by
  cases pc <;> first | exact h | cases h

/-- The task `iexecScheduler` has popped is in no queue and not with the other
executor. -/
theorem Core.iexec_alone (h : Core s) {e : Nat} (hheld : s.iexecPc.held = some e) :
    e ∉ s.taskReadyQueue ∧ e ∉ s.waitQueue ∧ s.cexecPc.held ≠ some e := by
  have hcount := h.places e
  rw [count_places, iexecHeld_some hheld, List.count_singleton_self,
    if_pos (h.live_of_iexecHeld hheld)] at hcount
  refine ⟨List.count_eq_zero.mp (by omega), List.count_eq_zero.mp (by omega), ?_⟩
  intro hboth
  have hzero := (h.held_count hboth).2.2
  rw [iexecHeld_some hheld, List.count_singleton_self] at hzero
  exact absurd hzero (by decide)

/-- Nor is the task `cexecScheduler` has popped. -/
theorem Core.cexec_alone (h : Core s) {e : Nat} (hheld : s.cexecPc.held = some e) :
    e ∉ s.taskReadyQueue ∧ e ∉ s.waitQueue ∧ s.iexecPc.held ≠ some e := by
  obtain ⟨hready, hwait, -⟩ := h.held_count hheld
  exact ⟨List.count_eq_zero.mp hready, List.count_eq_zero.mp hwait,
    fun hboth => (h.iexec_alone hboth).2.2 hheld⟩

theorem answer_type (r : QueueEntry) (rc : Int) :
    (r.answer rc).ioOperationType = r.ioOperationType := by
  unfold QueueEntry.answer
  split
  · split <;> rfl
  · rfl
  · rfl

/-- A new record asks for nothing, and the others are as they were. -/
theorem sutCreate_typed (hc : Core s) (h : Typed s) (junk : IoOperationData) :
    Typed (s.sutCreate junk) := by
  have hnew := malloced_not_created hc
  have htype : ∀ t, ((s.sutCreate junk).record t).ioOperationType
      = (s.record t).ioOperationType :=
    field_setRecord (fun r => r.ioOperationType) (h.fresh _ hnew).symm
  refine ⟨fun t ht => ?_, fun t ht => ?_, fun t ht => ?_, fun e he => ?_, fun e he => ?_,
    fun e he => ?_⟩ <;> rw [htype]
  · exact h.fresh t fun hmem => ht (List.mem_append_left _ hmem)
  · rcases List.mem_append.mp ht with ht | ht
    · exact h.ready t ht
    · rw [List.mem_singleton.mp ht]
      exact h.fresh _ hnew
  · exact h.wait t ht
  · exact h.resumed e he
  · exact h.serve e he
  · exact h.insert e he

/-- An assignment to the record of the task an executor holds, when the executor
goes where nothing is said about it. -/
theorem Typed.assign (h : Typed s) {e : Nat} (hready : e ∉ s.taskReadyQueue)
    (hwait : e ∉ s.waitQueue) (hmem : e ∈ s.created) (r : QueueEntry) :
    (∀ t, t ∉ s.created → ((s.setRecord e r).record t).ioOperationType = .noIoOpRequested) ∧
    (∀ t ∈ s.taskReadyQueue, ((s.setRecord e r).record t).ioOperationType = .noIoOpRequested) ∧
    ∀ t ∈ s.waitQueue, ((s.setRecord e r).record t).ioOperationType ≠ .noIoOpRequested := by
  refine ⟨fun t ht => ?_, fun t ht => ?_, fun t ht => ?_⟩
  · rw [record_setRecord_ne (e := e) (i := t) s r fun heq => ht (heq ▸ hmem)]
    exact h.fresh t ht
  · rw [record_setRecord_ne (e := e) (i := t) s r fun heq => hready (heq ▸ ht)]
    exact h.ready t ht
  · rw [record_setRecord_ne (e := e) (i := t) s r fun heq => hwait (heq ▸ ht)]
    exact h.wait t ht

theorem step_typed (hc : Core s) (h : Typed s) (hstep : s.step l = some s') : Typed s' := by
  cases steps_of_step hstep with
  | initCexec | initIexec | shutdown => exact { h with }
  | mainCreate | create => exact sutCreate_typed hc h _
  | call | peek | setCurrent | active | finished | cexecClear =>
      exact { h with resumed := fun _ he => by cases he }
  | @pop e hpc =>
      have hhead := hc.cexecPeeked e (by rw [hpc]; rfl)
      exact { h with
        ready := fun t ht => h.ready t (List.mem_of_mem_tail ht)
        resumed := fun i hi => Option.some.inj hi ▸ h.ready e (List.mem_of_head? hhead) }
  | @swap e c hpc hcur =>
      have hnone := h.resumed e (by rw [hpc]; rfl)
      refine { h with resumed := fun i hi => ?_ }
      rw [State.resume] at hi
      split at hi <;> exact Option.some.inj hi ▸ hnone
  | @assign e t c a assigns point hpc hcur =>
      have hheld : s.cexecPc.held = some e := by rw [hpc]; rfl
      obtain rfl := hc.current_unique hheld hcur
      obtain ⟨hready, hwait, hother⟩ := hc.cexec_alone hheld
      obtain ⟨h₁, h₂, h₃⟩ := h.assign hready hwait (hc.held_created hheld)
        (a.apply (s.record e))
      refine ⟨h₁, h₂, h₃, fun i hi => (by cases hi), fun i hi => ?_,
        fun i hi => ?_⟩
      · have hi : s.iexecPc = .serve i := hi
        refine Eq.trans_ne (congrArg _ (record_setRecord_ne s _ fun heq => ?_)) (h.serve i hi)
        exact hother (by rw [hi, heq]; rfl)
      · have hi : s.iexecPc = .insert i := hi
        refine Eq.trans (congrArg _ (record_setRecord_ne s _ fun heq => ?_)) (h.insert i hi)
        exact hother (by rw [hi, heq]; rfl)
  | @switch e t c point hpc hcur =>
      have htype := field_setRecord (s := s) (fun r => r.ioOperationType) (e := c)
        (r := { s.record c with context := ⟨t, point⟩ }) rfl
      refine ⟨fun i hi => ?_, fun i hi => ?_, fun i hi => ?_,
        fun i hi => (by cases hi), fun i hi => ?_, fun i hi => ?_⟩
      · exact (htype i).trans (h.fresh i hi)
      · exact (htype i).trans (h.ready i hi)
      · exact (htype i).trans_ne (h.wait i hi)
      · exact (htype i).trans_ne (h.serve i hi)
      · exact (htype i).trans (h.insert i hi)
  | @result e t c point hpc hcur =>
      exact { h with resumed := fun i hi => Option.some.inj hi ▸ h.resumed e (by rw [hpc]; rfl) }
  | @insertWait e hpc htype =>
      refine { h with
        wait := fun t ht => ?_
        resumed := fun i hi => by cases hi }
      rcases List.mem_append.mp ht with ht | ht
      · exact h.wait t ht
      · rw [List.mem_singleton.mp ht]
        exact htype
  | @insertReady e hpc htype =>
      refine { h with
        ready := fun t ht => ?_
        resumed := fun i hi => by cases hi }
      rcases List.mem_append.mp ht with ht | ht
      · exact h.ready t ht
      · rw [List.mem_singleton.mp ht]
        exact htype
  | cexecIdle hidle =>
      refine { h with resumed := fun i hi => ?_ }
      have hheld := CexecPc.held_of_resumed hi
      cases hidle.held.2.1.symm.trans hheld
  | iexecPeek | iexecSetCurrent | iexecClear =>
      exact { h with
        serve := fun _ he => by cases he
        insert := fun _ he => by cases he }
  | @iexecPop e rc hpc =>
      have hhead := hc.iexecPeeked e (by rw [hpc]; rfl)
      exact { h with
        wait := fun t ht => h.wait t (List.mem_of_mem_tail ht)
        serve := fun i hi => IexecPc.serve.inj hi ▸ h.wait e (List.mem_of_head? hhead)
        insert := fun i hi => by cases hi }
  | @serve e rc hpc =>
      have htype := field_setRecord (s := s) (fun r => r.ioOperationType)
        (answer_type (s.record e) rc)
      refine ⟨fun i hi => ?_, fun i hi => ?_, fun i hi => ?_, fun i hi => ?_,
        fun i hi => (by cases hi), fun i hi => (by cases hi)⟩
      · exact (htype i).trans (h.fresh i hi)
      · exact (htype i).trans (h.ready i hi)
      · exact (htype i).trans_ne (h.wait i hi)
      · exact (htype i).trans (h.resumed i hi)
  | @reset e rc hpc =>
      have hheld : s.iexecPc.held = some e := by rw [hpc]; rfl
      obtain ⟨hready, hwait, hother⟩ := hc.iexec_alone hheld
      have hmem := (hc.iexecCurrent e (by rw [hpc]; rfl)).2
      obtain ⟨h₁, h₂, h₃⟩ := h.assign hready hwait hmem
        { s.record e with ioOperationType := .noIoOpRequested }
      refine ⟨h₁, h₂, h₃, fun i hi => ?_, fun i hi => (by cases hi),
        fun i hi => ?_⟩
      · refine Eq.trans (congrArg _ (record_setRecord_ne s _ fun heq => ?_)) (h.resumed i hi)
        exact hother (heq ▸ CexecPc.held_of_resumed hi)
      · obtain rfl := IexecPc.insert.inj hi
        exact congrArg QueueEntry.ioOperationType (record_setRecord_self s e _)
  | @iexecInsert e rc hpc =>
      refine { h with
        ready := fun t ht => ?_
        serve := fun i hi => by cases hi
        insert := fun i hi => by cases hi }
      rcases List.mem_append.mp ht with ht | ht
      · exact h.ready t ht
      · rw [List.mem_singleton.mp ht]
        exact h.insert e hpc
  | iexecIdle hidle =>
      refine { h with
        serve := fun i hi => ?_
        insert := fun i hi => ?_ }
      · cases hidle.held.2.1.symm.trans (congrArg IexecPc.held hi)
      · cases hidle.held.2.1.symm.trans (congrArg IexecPc.held hi)

/-! ## What is still to be served -/

/-- The assignments the running call has still to make to a record. -/
def CexecPc.rest : CexecPc → Nat → List Assign
  | .call _ t body, i => if t = i then body.assigns else []
  | _, _ => []

namespace State

variable (s : State)

/-- The record when the call that is under way has made its assignments. -/
def after (t : Nat) : QueueEntry := (s.cexecPc.rest t).foldl Assign.apply (s.record t)

/-- The request of a task that has not been served. -/
def owed (t : Nat) : Option Request :=
  if s.iexecPc = .reset t then none else (s.after t).request

/-- The task `iexecScheduler` has popped and not served. -/
def unserved : List Nat :=
  match s.iexecPc with
  | .serve e => [e]
  | _ => []

end State

/-- Served is what was called, but for what is owed, as far as `f` can tell. -/
def Logged {α : Type} (f : Request → α) (s : State) : Prop :=
  ∀ t, (s.callsOf t).map f = (s.servedOf t).map (fun x => f x.1) ++ ((s.owed t).map f).toList

/-- The tasks were served in the order they entered `waitQueue`. -/
def Fifo (s : State) : Prop :=
  s.entered = s.served.map Prod.fst ++ s.unserved ++ s.waitQueue

theorem request_eq_none {r : QueueEntry} :
    r.request = none ↔ r.ioOperationType = .noIoOpRequested := by
  unfold QueueEntry.request
  split <;> simp_all

theorem CexecPc.rest_of_not_running {pc : CexecPc} {i : Nat} (h : pc.running ≠ some i) :
    pc.rest i = [] := by
  cases pc with
  | call e t body => exact if_neg fun heq => h (congrArg some heq)
  | _ => rfl

theorem owed_not_running {t : Nat} (h : s.cexecPc.running ≠ some t) (hi : s.iexecPc ≠ .reset t) :
    s.owed t = (s.record t).request := by
  rw [State.owed, if_neg hi, State.after, CexecPc.rest_of_not_running h]
  rfl

/-- The task whose code runs is not with `iexecScheduler`. -/
theorem Core.running_alone (h : Core s) {t : Nat} (hrun : s.cexecPc.running = some t) :
    s.iexecPc.held ≠ some t :=
  (h.cexec_alone (h.running t hrun)).2.2

/-- The record of a resumed task asks for nothing. -/
theorem owed_resumed (h : Typed s) {t : Nat} (hrun : s.cexecPc.resumed = some t) :
    s.owed t = none := by
  unfold State.owed
  split
  · rfl
  · have hrest : s.cexecPc.rest t = [] := by
      cases hpc : s.cexecPc <;> rw [hpc] at hrun <;> first | rfl | cases hrun
    rw [State.after, hrest]
    exact request_eq_none.mpr (h.resumed t hrun)

/-- Steps that touch neither a record nor the journals, begin and end no call, and
serve nothing. -/
theorem owed_same (hrest : ∀ t, s'.cexecPc.rest t = s.cexecPc.rest t) (hrec : s'.record = s.record)
    (hreset : ∀ t, s'.iexecPc = .reset t ↔ s.iexecPc = .reset t) (t : Nat) :
    s'.owed t = s.owed t := by
  rw [State.owed, State.owed, State.after, State.after, hrest, hrec]
  exact if_congr (hreset t) rfl rfl

/-- What the assignments of a call leave the record asking for. -/
theorem body_request {r : QueueEntry} (h : r.ioOperationType = .noIoOpRequested) (c : Call) :
    (c.body.assigns.foldl Assign.apply r).request = match c.request with
      | some (.closeFile _) => some (.closeFile r.ioOperationData.closeFile.fd)
      | req => req := by
  cases c with
  | yield | exit => exact request_eq_none.mpr h
  | io req => cases req <;> rfl

theorem sutCreate_owed (hc : Core s) (h : Typed s) (junk : IoOperationData) (t : Nat) :
    (s.sutCreate junk).owed t = s.owed t := by
  have hnew := malloced_not_created hc
  unfold State.owed
  refine if_congr Iff.rfl rfl ?_
  by_cases ht : t = s.malloced
  · have hrun : s.cexecPc.running ≠ some t := fun hrun =>
      hnew (ht ▸ hc.held_created (hc.running t hrun))
    have hrest : s.cexecPc.rest t = [] := CexecPc.rest_of_not_running hrun
    have hrest' : (s.sutCreate junk).cexecPc.rest t = [] := hrest
    rw [State.after, State.after, hrest, hrest', ht]
    show ((s.sutCreate junk).record s.malloced).request = (s.record s.malloced).request
    rw [request_eq_none.mpr (h.fresh _ hnew)]
    exact request_eq_none.mpr (congrArg QueueEntry.ioOperationType (record_setRecord_self s _ _))
  · have hrec : (s.sutCreate junk).record t = s.record t := record_setRecord_ne s _ ht
    rw [State.after, State.after, hrec]
    rfl

section

variable {α : Type} {f : Request → α}

theorem Logged.same (h : Logged f s) (hcalls : s'.calls = s.calls) (hserved : s'.served = s.served)
    (howed : ∀ t, s'.owed t = s.owed t) : Logged f s' := by
  intro t
  rw [State.callsOf, State.servedOf, hcalls, hserved, howed]
  exact h t

theorem Logged.start : Logged f start := fun _ => rfl

theorem CexecIdle.rest {pc : CexecPc} (h : CexecIdle s pc) (t : Nat) :
    pc.rest t = s.cexecPc.rest t := by
  cases h with
  | empty hpc | bothEmpty hpc | notEmpty hpc | isShutdown hpc | cexecNull hpc | iexecNull hpc
  | failed hpc => rw [hpc]; rfl

/-- The running task is owed what its call asks for. -/
theorem call_owed (hc : Core s) (ht : Typed s) {e t : Nat} (hpc : s.cexecPc = .run e t)
    (c : Call) (i : Nat) :
    State.owed { s with
      calls := s.calls ++ (c.request.map fun r => (t, r)).toList
      cexecPc := .call e t c.body } i
      = if t = i then (match c.request with
          | some (.closeFile _) => some (.closeFile (s.record t).ioOperationData.closeFile.fd)
          | req => req)
        else s.owed i := by
  have hrun : s.cexecPc.running = some t := by rw [hpc]; rfl
  have hte : t = e := hc.task_eq (by rw [hpc]; rfl) hrun
  by_cases hi : t = i
  · subst hi
    have hreset : s.iexecPc ≠ .reset t := fun hreset =>
      hc.running_alone hrun (by rw [hreset]; rfl)
    rw [if_pos rfl, State.owed, if_neg hreset, State.after, CexecPc.rest, if_pos rfl]
    exact body_request (ht.resumed t (by rw [hpc, hte]; rfl)) c
  · have hrest : s.cexecPc.rest i = [] := by rw [hpc]; rfl
    rw [if_neg hi]
    unfold State.owed
    refine if_congr Iff.rfl rfl ?_
    rw [State.after, State.after, hrest, CexecPc.rest, if_neg hi]

/-- A call is recorded as what its assignments will ask for, provided a `close`
means the descriptor that is in `closeFile` already. -/
theorem call_logged (hc : Core s) (ht : Typed s) (h : Logged f s) {e t : Nat} {c : Call}
    (hpc : s.cexecPc = .run e t)
    (hok : ∀ fd, c = .io (.closeFile fd) →
      f (.closeFile fd) = f (.closeFile (s.record t).ioOperationData.closeFile.fd)) :
    Logged f { s with
      calls := s.calls ++ (c.request.map fun r => (t, r)).toList
      cexecPc := .call e t c.body } := by
  have hte : t = e := hc.task_eq (by rw [hpc]; rfl) (by rw [hpc]; rfl)
  intro i
  rw [call_owed hc ht hpc c i]
  have hbefore := h i
  by_cases hi : t = i
  · subst hi
    rw [owed_resumed ht (t := t) (by rw [hpc, hte]; rfl)] at hbefore
    rw [if_pos rfl]
    cases c with
    | yield | exit =>
        show (Journal.of (s.calls ++ []) t).map f = _ ++ []
        rw [List.append_nil]
        exact hbefore
    | io r =>
        show (Journal.of (s.calls ++ [(t, r)]) t).map f = (s.servedOf t).map (fun x => f x.1) ++ _
        rw [Journal.of_append_self, List.map_append]
        refine congrArg₂ (· ++ ·) (hbefore.trans (List.append_nil _)) ?_
        cases r with
        | closeFile fd => exact congrArg (fun x => [x]) (hok fd rfl)
        | openFile | readFile | writeFile => rfl
  · have hcalls : Journal.of (s.calls ++ (c.request.map fun r => (t, r)).toList) i
        = Journal.of s.calls i := by
      cases c with
      | yield | exit => exact congrArg (Journal.of · i) (List.append_nil s.calls)
      | io r => exact Journal.of_append_ne s.calls r hi
    rw [if_neg hi, State.callsOf, hcalls]
    exact hbefore

/-- A task that has been served is owed nothing. -/
theorem serve_owed {e : Nat} (hpc : s.iexecPc = .serve e) (r : QueueEntry)
    (served : List (Nat × Request × Int)) (i : Nat) :
    State.owed { s.setRecord e r with served := served, iexecPc := .reset e } i
      = if i = e then none else s.owed i := by
  by_cases hi : i = e
  · rw [if_pos hi, hi]
    exact if_pos rfl
  · rw [if_neg hi]
    unfold State.owed
    rw [if_neg fun hreset => hi (IexecPc.reset.inj hreset).symm, hpc, if_neg (by exact nofun),
      State.after, State.after]
    refine congrArg (fun r => QueueEntry.request (List.foldl Assign.apply r _)) ?_
    exact record_setRecord_ne s _ hi

/-- A task with `iexecScheduler` that has not been served is owed what its record
asks for. -/
theorem owed_serve (hc : Core s) (ht : Typed s) {e : Nat} (hpc : s.iexecPc = .serve e) :
    ∃ r, (s.record e).request = some r ∧ s.owed e = some r := by
  obtain ⟨r, hr⟩ := Option.ne_none_iff_exists'.mp fun hnone =>
    ht.serve e hpc (request_eq_none.mp hnone)
  have hrun : s.cexecPc.running ≠ some e := fun hrun => hc.running_alone hrun (by rw [hpc]; rfl)
  exact ⟨r, hr, (owed_not_running hrun (by rw [hpc]; exact nofun)).trans hr⟩

/-- The system call made is what was owed. -/
theorem serve_logged (hc : Core s) (ht : Typed s) (h : Logged f s) {e : Nat}
    (hpc : s.iexecPc = .serve e) (rc : Int) :
    Logged f { s.setRecord e ((s.record e).answer rc) with
      served := s.served ++ ((s.record e).request.map fun r => (e, r, rc)).toList
      iexecPc := .reset e } := by
  obtain ⟨r, hr, howed⟩ := owed_serve hc ht hpc
  intro i
  rw [serve_owed hpc, hr]
  have hbefore := h i
  by_cases hi : i = e
  · subst hi
    rw [howed] at hbefore
    rw [if_pos rfl]
    show (s.callsOf i).map f = (Journal.of (s.served ++ [(i, r, rc)]) i).map _ ++ []
    rw [Journal.of_append_self, List.map_append, List.append_nil]
    exact hbefore
  · rw [if_neg hi]
    show (s.callsOf i).map f = (Journal.of (s.served ++ [(e, r, rc)]) i).map _ ++ _
    rw [Journal.of_append_ne _ _ fun heq => hi heq.symm]
    exact hbefore

/-- Besides the calls and the system calls, nothing changes what is in the journals
and what is owed. -/
theorem journals_kept (hc : Core s) (ht : Typed s) (hstep : s.step l = some s')
    (hcall : ∀ c, l ≠ .call c) (hserve : ∀ e rc, s.iexecPc = .serve e → l ≠ .iexec rc) :
    s'.calls = s.calls ∧ s'.served = s.served ∧ ∀ t, s'.owed t = s.owed t := by
  cases steps_of_step hstep with
  | initCexec | initIexec | shutdown => exact ⟨rfl, rfl, fun _ => rfl⟩
  | mainCreate | create => exact ⟨rfl, rfl, sutCreate_owed hc ht _⟩
  | call => exact absurd rfl (hcall _)
  | serve hpc => exact absurd rfl (hserve _ _ hpc)
  | peek hpc | setCurrent hpc | pop hpc | active hpc | finished hpc | cexecClear hpc
  | result hpc | insertWait hpc | insertReady hpc =>
      exact ⟨rfl, rfl, owed_same (fun t => by rw [hpc]; rfl) rfl fun _ => Iff.rfl⟩
  | @swap e c hpc hcur =>
      refine ⟨rfl, rfl, owed_same (fun t => ?_) rfl fun _ => Iff.rfl⟩
      rw [hpc, State.resume]
      split <;> rfl
  | cexecIdle hidle => exact ⟨rfl, rfl, owed_same hidle.rest rfl fun _ => Iff.rfl⟩
  | @assign e t c a assigns point hpc hcur =>
      have hheld : s.cexecPc.held = some e := by rw [hpc]; rfl
      obtain rfl := hc.current_unique hheld hcur
      have hte : t = e := hc.task_eq hheld (by rw [hpc]; rfl)
      refine ⟨rfl, rfl, ?_⟩
      intro i
      unfold State.owed
      refine if_congr Iff.rfl rfl (congrArg QueueEntry.request ?_)
      rw [State.after, State.after, hpc]
      by_cases hi : t = i
      · have hself : (s.setRecord e (a.apply (s.record e))).record i = a.apply (s.record i) := by
          rw [← hi, hte]
          exact record_setRecord_self s e _
        simp only [CexecPc.rest, if_pos hi, List.foldl_cons]
        rw [← hself]
      · simp only [CexecPc.rest, if_neg hi, List.foldl_nil]
        exact record_setRecord_ne s _ fun heq => hi (hte.trans heq.symm)
  | @switch e t c point hpc hcur =>
      refine ⟨rfl, rfl, ?_⟩
      intro i
      unfold State.owed
      refine if_congr Iff.rfl rfl ?_
      have hrest : s.cexecPc.rest i = [] := by
        rw [hpc, CexecPc.rest]
        split <;> rfl
      rw [State.after, State.after, hrest]
      refine (field_setRecord QueueEntry.request ?_ i :)
      rfl
  | iexecPeek hpc | iexecSetCurrent hpc | iexecPop hpc | iexecInsert hpc | iexecClear hpc =>
      refine ⟨rfl, rfl, owed_same (fun _ => rfl) rfl fun t =>
        ⟨fun hreset => ?_, fun hreset => ?_⟩⟩
      · cases hreset
      · cases hpc.symm.trans hreset
  | iexecIdle hidle =>
      obtain ⟨hold, hnew, -, -⟩ := hidle.held
      refine ⟨rfl, rfl, owed_same (fun _ => rfl) rfl fun t =>
        ⟨fun hreset => ?_, fun hreset => ?_⟩⟩
      · cases hnew.symm.trans (congrArg IexecPc.held hreset)
      · cases hold.symm.trans (congrArg IexecPc.held hreset)
  | @reset e rc hpc =>
      have hheld : s.iexecPc.held = some e := by rw [hpc]; rfl
      refine ⟨rfl, rfl, ?_⟩
      intro i
      by_cases hi : i = e
      · have hrun : s.cexecPc.running ≠ some e := fun hrun => hc.running_alone hrun hheld
        have hbefore : s.owed e = none := if_pos hpc
        rw [hi, hbefore]
        refine Eq.trans (owed_not_running hrun fun hreset => ?_) (request_eq_none.mpr ?_)
        · cases hreset
        exact congrArg QueueEntry.ioOperationType (record_setRecord_self s e _)
      · unfold State.owed
        have hother : s.iexecPc ≠ .reset i := fun hreset =>
          hi (IexecPc.reset.inj (hreset.symm.trans hpc))
        rw [if_neg hother, if_neg (fun hreset => by cases hreset), State.after, State.after]
        refine congrArg (fun r => QueueEntry.request (List.foldl Assign.apply r _)) ?_
        exact record_setRecord_ne s _ hi

theorem step_logged (hc : Core s) (ht : Typed s) (h : Logged f s)
    (hok : ∀ e t fd, l = .call (.io (.closeFile fd)) → s.cexecPc = .run e t →
      f (.closeFile fd) = f (.closeFile (s.record t).ioOperationData.closeFile.fd))
    (hstep : s.step l = some s') : Logged f s' := by
  have hkept := journals_kept hc ht hstep
  cases steps_of_step hstep with
  | @call e t c hpc => exact call_logged hc ht h hpc fun fd hcl => hok e t fd (hcl ▸ rfl) hpc
  | @serve e rc hpc => exact serve_logged hc ht h hpc rc
  | iexecPeek hpc | iexecSetCurrent hpc | iexecPop hpc | reset hpc | iexecInsert hpc
  | iexecClear hpc =>
      obtain ⟨hcalls, hserved, howed⟩ := hkept nofun fun e _ hserve => by
        cases hpc.symm.trans hserve
      exact h.same hcalls hserved howed
  | iexecIdle hidle =>
      obtain ⟨hcalls, hserved, howed⟩ := hkept nofun fun e _ hserve => by
        cases hidle.held.1.symm.trans (congrArg IexecPc.held hserve)
      exact h.same hcalls hserved howed
  | _ =>
      obtain ⟨hcalls, hserved, howed⟩ := hkept nofun nofun
      exact h.same hcalls hserved howed

end

theorem Fifo.start : Fifo start := rfl

theorem unserved_of_not_held (h : s.iexecPc.held = none) : s.unserved = [] := by
  unfold State.unserved
  cases hpc : s.iexecPc with
  | serve e =>
      rw [hpc] at h
      cases h
  | _ => rfl

theorem step_fifo (hc : Core s) (ht : Typed s) (h : Fifo s) (hstep : s.step l = some s') :
    Fifo s' := by
  unfold Fifo at h ⊢
  cases steps_of_step hstep with
  | @insertWait e hpc htype =>
      show s.entered ++ [e] = s.served.map Prod.fst ++ s.unserved ++ (s.waitQueue ++ [e])
      rw [h, List.append_assoc]
  | @iexecPop e rc hpc =>
      obtain ⟨rest, hwait⟩ := List.head?_eq_some_iff.mp (hc.iexecPeeked e (by rw [hpc]; rfl))
      have hnone : s.unserved = [] := unserved_of_not_held (by rw [hpc]; rfl)
      show s.entered = s.served.map Prod.fst ++ [e] ++ s.waitQueue.tail
      rw [h, hnone, hwait, List.append_nil, List.append_assoc]
      rfl
  | @serve e rc hpc =>
      obtain ⟨r, hr⟩ := Option.ne_none_iff_exists'.mp fun hnone =>
        ht.serve e hpc (request_eq_none.mp hnone)
      have hone : s.unserved = [e] := by rw [State.unserved, hpc]
      show s.entered = (s.served ++ ((s.record e).request.map fun r => (e, r, rc)).toList).map
        Prod.fst ++ [] ++ s.waitQueue
      rw [h, hone, hr, List.map_append, List.append_nil]
      rfl
  | iexecPeek hpc | iexecSetCurrent hpc | iexecClear hpc | iexecInsert hpc | reset hpc =>
      have hnone : s.unserved = [] := by rw [State.unserved, hpc]
      rw [hnone] at h
      exact h
  | iexecIdle hidle =>
      obtain ⟨hold, hnew, -, -⟩ := hidle.held
      rw [unserved_of_not_held hold] at h
      rw [unserved_of_not_held hnew]
      exact h
  | _ => exact h

/-! ## Task conservation -/

/-- The operation of a request, without its arguments. -/
def Request.operation : Request → IoOperationType
  | .openFile _ => .openOp
  | .readFile .. => .readOp
  | .writeFile .. => .writeOp
  | .closeFile _ => .closeOp

/-- No task is lost or doubled, a popped task is the one that was seen, the queues
have what belongs there, and the calls of each task are served once each, in the
order the tasks entered `waitQueue`, before the task goes on. -/
structure Conserved (s : State) : Prop where
  places : ∀ t, s.places.count t = if s.Live t then 1 else 0
  cexecPeeked : ∀ e, s.cexecPc.peeked = some e → s.taskReadyQueue.head? = some e
  iexecPeeked : ∀ e, s.iexecPc.peeked = some e → s.waitQueue.head? = some e
  ready : ∀ t ∈ s.taskReadyQueue, (s.record t).ioOperationType = .noIoOpRequested
  wait : ∀ t ∈ s.waitQueue, (s.record t).ioOperationType ≠ .noIoOpRequested
  fifo : s.entered = s.served.map Prod.fst ++ s.unserved ++ s.waitQueue
  once : ∀ t, ∃ owed : Option Request, (s.callsOf t).map Request.operation
    = (s.servedOf t).map (fun x => x.1.operation) ++ (owed.map Request.operation).toList
  before : ∀ e t, s.cexecPc = .run e t →
    (s.callsOf t).map Request.operation = (s.servedOf t).map (fun x => x.1.operation)

/-- The queues and the journals of every run, for a comparison that does not look
at the descriptor of a `close`. -/
theorem reachable_logged {α : Type} (f : Request → α)
    (hf : ∀ fd fd', f (.closeFile fd) = f (.closeFile fd')) (h : system.Reachable s) :
    (Core s ∧ Typed s) ∧ Fifo s ∧ Logged f s :=
  System.Reachable.invariant (S := system) (I := fun s => (Core s ∧ Typed s) ∧ Fifo s ∧ Logged f s)
    (fun _ hs => hs ▸ ⟨⟨Core.start, Typed.start⟩, Fifo.start, Logged.start⟩)
    (fun _ _ _ hi hs => ⟨⟨step_core hi.1.1 hs, step_typed hi.1.1 hi.1.2 hs⟩,
      step_fifo hi.1.1 hi.1.2 hi.2.1 hs,
      step_logged hi.1.1 hi.1.2 hi.2.2 (fun _ _ fd _ _ => hf fd _) hs⟩) h

/-- When a task's code runs, all its calls have been served. -/
theorem Logged.run {α : Type} {f : Request → α} (h : Logged f s) (hc : Core s) (ht : Typed s)
    {e t : Nat} (hpc : s.cexecPc = .run e t) :
    (s.callsOf t).map f = (s.servedOf t).map fun x => f x.1 := by
  have hte : t = e := hc.task_eq (by rw [hpc]; rfl) (by rw [hpc]; rfl)
  have hlog := h t
  rw [owed_resumed ht (by rw [hpc, hte]; rfl)] at hlog
  exact hlog.trans (List.append_nil _)

theorem tasks_conserved (h : system.Reachable s) : Conserved s := by
  obtain ⟨⟨hc, ht⟩, hfifo, hlog⟩ := reachable_logged Request.operation (fun _ _ => rfl) h
  exact ⟨hc.places, hc.cexecPeeked, hc.iexecPeeked, ht.ready, ht.wait, hfifo,
    fun t => ⟨s.owed t, hlog t⟩, fun e t hpc => hlog.run hc ht hpc⟩

/-- A task that has opened a file runs again. -/
theorem tasks_conserved_open :
    ∃ s, System.play State.step (firstTask ⟨⟨0, 0⟩, ⟨0, 0, 0, 0⟩, ⟨0, 0, 0⟩, ⟨0⟩⟩ ++
        callSteps (.io (.openFile 100)) 2 ++ serveSteps 3 ++
        List.replicate 5 .cexec) start = some s ∧
      s.cexecPc = .run 2 2 ∧ s.served = [(2, .openFile 100, 3)] ∧
      s.returns = [.openFile 2 0 3] ∧ Conserved s := by
  have hplay : ∃ s, System.play State.step (firstTask ⟨⟨0, 0⟩, ⟨0, 0, 0, 0⟩, ⟨0, 0, 0⟩, ⟨0⟩⟩ ++
        callSteps (.io (.openFile 100)) 2 ++ serveSteps 3 ++
        List.replicate 5 .cexec) start = some s ∧
      s.cexecPc = .run 2 2 ∧ s.served = [(2, .openFile 100, 3)] ∧
      s.returns = [.openFile 2 0 3] := ⟨_, rfl, rfl, rfl, rfl⟩
  obtain ⟨s, hs, hpc, hserved, hreturns⟩ := hplay
  exact ⟨s, hs, hpc, hserved, hreturns, tasks_conserved
    (System.Reachable.play (fun _ _ _ h => h) (.start rfl) hs)⟩

/-! ## The arguments of the system calls -/

/-- The condition on a step: `sut_close` is given the descriptor that `closeFile`
of the task's record has already. No code assigns to `closeFile`, so that is what
`malloc` left there. -/
def FdKept (s : State) : Label → Prop
  | .call (.io (.closeFile fd)) => ∀ t ∈ s.cexecPc.running,
      (s.record t).ioOperationData.closeFile.fd = fd
  | _ => True

instance (s : State) : DecidablePred (FdKept s)
  | .call (.io (.closeFile _)) => inferInstanceAs (Decidable (∀ t ∈ s.cexecPc.running, _))
  | .call (.io (.openFile _)) | .call (.io (.readFile ..)) | .call (.io (.writeFile ..))
  | .call .yield | .call .exit | .main | .mainCreate _ | .shutdown | .create _ | .cexec
  | .iexec _ => .isTrue trivial

/-- The system calls made for a task are its calls, with their arguments, but for
the last while it waits; when its code runs they are all its calls. -/
structure Unchanged (s : State) : Prop where
  served : ∀ t, ∃ owed : Option Request,
    s.callsOf t = (s.servedOf t).map Prod.fst ++ owed.toList
  settled : ∀ e t, s.cexecPc = .run e t → s.callsOf t = (s.servedOf t).map Prod.fst

/-- In the runs where every descriptor is in `closeFile` before `sut_close` is
called, every request reaches the system as it was made. -/
theorem requests_unchanged (h : (system.guard FdKept).Reachable s) : Unchanged s := by
  obtain ⟨⟨hc, ht⟩, hlog⟩ : (Core s ∧ Typed s) ∧ Logged id s :=
    System.Reachable.invariant (S := system.guard FdKept)
      (I := fun s => (Core s ∧ Typed s) ∧ Logged id s)
      (fun _ hs => hs ▸ ⟨⟨Core.start, Typed.start⟩, Logged.start⟩)
      (fun _ _ _ hi hs => ⟨⟨step_core hi.1.1 hs.2, step_typed hi.1.1 hi.1.2 hs.2⟩,
        step_logged hi.1.1 hi.1.2 hi.2 (fun e t fd hl hpc => by
          subst hl
          exact congrArg Request.closeFile (hs.1 t (by rw [hpc]; rfl)).symm) hs.2⟩) h
  have hid : ∀ t, (s.callsOf t).map id = s.callsOf t := fun t => List.map_id _
  refine ⟨fun t => ⟨s.owed t, ?_⟩, fun e t hpc => ?_⟩
  · have hlogt := hlog t
    rw [hid, Option.map_id] at hlogt
    exact hlogt
  · have hrun := hlog.run hc ht hpc
    rw [hid] at hrun
    exact hrun

/-- A task that opens a file and closes it, in memory where `closeFile.fd` is the
descriptor by chance. -/
theorem requests_unchanged_close :
    ∃ s, System.play (System.checked State.step FdKept)
        (firstTask ⟨⟨0, 0⟩, ⟨0, 0, 0, 0⟩, ⟨0, 0, 0⟩, ⟨3⟩⟩ ++
          callSteps (.io (.openFile 100)) 2 ++ serveSteps 3 ++ List.replicate 5 .cexec ++
          callSteps (.io (.closeFile 3)) 2 ++ serveSteps 0) start = some s ∧
      s.servedOf 2 = [(.openFile 100, 3), (.closeFile 3, 0)] ∧ Unchanged s := by
  have hplay : ∃ s, System.play (System.checked State.step FdKept)
        (firstTask ⟨⟨0, 0⟩, ⟨0, 0, 0, 0⟩, ⟨0, 0, 0⟩, ⟨3⟩⟩ ++
          callSteps (.io (.openFile 100)) 2 ++ serveSteps 3 ++ List.replicate 5 .cexec ++
          callSteps (.io (.closeFile 3)) 2 ++ serveSteps 0) start = some s ∧
      s.servedOf 2 = [(.openFile 100, 3), (.closeFile 3, 0)] := ⟨_, rfl, rfl⟩
  obtain ⟨s, hs, hserved⟩ := hplay
  exact ⟨s, hs, hserved, requests_unchanged (System.Reachable.play
    (System.guard_of_checked (S := system) fun _ _ _ h => h) (.start rfl) hs)⟩

/-- The same where `malloc` left 0: the system call made for `sut_close(3)` is
`close(0)`. -/
theorem close_served_wrong :
    ∃ s, System.play State.step
        (firstTask ⟨⟨0, 0⟩, ⟨0, 0, 0, 0⟩, ⟨0, 0, 0⟩, ⟨0⟩⟩ ++
          callSteps (.io (.openFile 100)) 2 ++ serveSteps 3 ++ List.replicate 5 .cexec ++
          callSteps (.io (.closeFile 3)) 2 ++ serveSteps 0) start = some s ∧
      system.Reachable s ∧ s.callsOf 2 = [.openFile 100, .closeFile 3] ∧
      s.servedOf 2 = [(.openFile 100, 3), (.closeFile 0, 0)] ∧ ¬ Unchanged s := by
  have hplay : ∃ s, System.play State.step
        (firstTask ⟨⟨0, 0⟩, ⟨0, 0, 0, 0⟩, ⟨0, 0, 0⟩, ⟨0⟩⟩ ++
          callSteps (.io (.openFile 100)) 2 ++ serveSteps 3 ++ List.replicate 5 .cexec ++
          callSteps (.io (.closeFile 3)) 2 ++ serveSteps 0) start = some s ∧
      s.callsOf 2 = [.openFile 100, .closeFile 3] ∧
      s.servedOf 2 = [(.openFile 100, 3), (.closeFile 0, 0)] := ⟨_, rfl, rfl, rfl⟩
  obtain ⟨s, hs, hcalls, hserved⟩ := hplay
  refine ⟨s, hs, System.Reachable.play (fun _ _ _ h => h) (.start rfl) hs, hcalls, hserved,
    ?_⟩
  intro h
  obtain ⟨owed, howed⟩ := h.served 2
  rw [hcalls, hserved] at howed
  cases owed <;> simp at howed

end OsConcepts.Sut
