import OsConcepts.Sut.Scheduler

/-!
# What a step of the scheduler does

`Steps` has one case for each thing a step can do, with what the step found; every
invariant is proved by these cases. The moves of an executor that finds its queue
empty are set apart, since only the exit test cares for them.
-/

namespace OsConcepts.Sut

open OsConcepts

variable {s s' : State} {l : Label}

/-- `cexecScheduler` with no task: it looks at the queues, tests the flags, and
goes on or exits. -/
inductive CexecIdle (s : State) : CexecPc → Prop
  | empty : s.cexecPc = .peek → s.taskReadyQueue = [] → CexecIdle s .snapshot
  | bothEmpty : s.cexecPc = .snapshot → s.taskReadyQueue = [] → s.waitQueue = [] →
      CexecIdle s (.test .isShutdown s.insertions)
  | notEmpty : s.cexecPc = .snapshot → CexecIdle s .clear
  | isShutdown {n : Nat} : s.cexecPc = .test .isShutdown n → s.isShutdown = true →
      CexecIdle s (.test .cexec n)
  | cexecNull {n : Nat} : s.cexecPc = .test .cexec n → s.cexecCurrentRunningTask = none →
      CexecIdle s (.test .iexec n)
  | iexecNull {n : Nat} : s.cexecPc = .test .iexec n → s.iexecCurrentRunningTask = none →
      CexecIdle s .exit
  | failed {f : Flag} {n : Nat} : s.cexecPc = .test f n → CexecIdle s .clear

/-- `iexecScheduler` with no task. -/
inductive IexecIdle (s : State) : IexecPc → Prop
  | empty : s.iexecPc = .peek → s.waitQueue = [] → IexecIdle s .snapshot
  | bothEmpty : s.iexecPc = .snapshot → s.taskReadyQueue = [] → s.waitQueue = [] →
      IexecIdle s (.test .isShutdown s.insertions)
  | notEmpty : s.iexecPc = .snapshot → IexecIdle s .clear
  | isShutdown {n : Nat} : s.iexecPc = .test .isShutdown n → s.isShutdown = true →
      IexecIdle s (.test .cexec n)
  | cexecNull {n : Nat} : s.iexecPc = .test .cexec n → s.cexecCurrentRunningTask = none →
      IexecIdle s (.test .iexec n)
  | iexecNull {n : Nat} : s.iexecPc = .test .iexec n → s.iexecCurrentRunningTask = none →
      IexecIdle s .exit
  | failed {f : Flag} {n : Nat} : s.iexecPc = .test f n → IexecIdle s .clear

/-- The steps by their outcomes. -/
inductive Steps (s : State) : Label → State → Prop
  | initCexec : s.mainPc = .initCexec → Steps s .main { s with
      cexecCurrentRunningTask := some s.malloced
      malloced := s.malloced + 1
      mainPc := .initIexec }
  | initIexec : s.mainPc = .initIexec → Steps s .main { s with
      iexecCurrentRunningTask := some s.malloced
      malloced := s.malloced + 1
      mainPc := .calls }
  | mainCreate {junk : IoOperationData} : s.mainPc = .calls →
      Steps s (.mainCreate junk) (s.sutCreate junk)
  | shutdown : s.mainPc = .calls →
      Steps s .shutdown { s with isShutdown := true, mainPc := .join }
  | create {e t : Nat} {junk : IoOperationData} : s.cexecPc = .run e t →
      Steps s (.create junk) (s.sutCreate junk)
  | call {e t : Nat} {c : Call} : s.cexecPc = .run e t → Steps s (.call c) { s with
      calls := s.calls ++ (c.request.map fun r => (t, r)).toList
      cexecPc := .call e t c.body }
  | peek {e : Nat} : s.cexecPc = .peek → s.taskReadyQueue.head? = some e →
      Steps s .cexec { s with cexecPc := .setCurrent e }
  | setCurrent {e : Nat} : s.cexecPc = .setCurrent e →
      Steps s .cexec { s with cexecCurrentRunningTask := some e, cexecPc := .pop e }
  | pop {e : Nat} : s.cexecPc = .pop e →
      Steps s .cexec { s with taskReadyQueue := s.taskReadyQueue.tail, cexecPc := .swap e }
  | swap {e c : Nat} : s.cexecPc = .swap e → s.cexecCurrentRunningTask = some c →
      Steps s .cexec { s with cexecPc := State.resume e (s.record c).context }
  | assign {e t c : Nat} {a : Assign} {assigns : List Assign} {point : Point} :
      s.cexecPc = .call e t ⟨a :: assigns, point⟩ → s.cexecCurrentRunningTask = some c →
      Steps s .cexec { s.setRecord c (a.apply (s.record c)) with
        cexecPc := .call e t ⟨assigns, point⟩ }
  | switch {e t c : Nat} {point : Point} :
      s.cexecPc = .call e t ⟨[], point⟩ → s.cexecCurrentRunningTask = some c →
      Steps s .cexec { s.setRecord c { s.record c with context := ⟨t, point⟩ } with
        cexecPc := .afterSwap e }
  | result {e t c : Nat} {point : Point} :
      s.cexecPc = .result e t point → s.cexecCurrentRunningTask = some c →
      Steps s .cexec { s with
        returns := s.returns ++ s.returned t (s.record c) point
        cexecPc := .run e t }
  | active {e c : Nat} : s.cexecPc = .afterSwap e → s.cexecCurrentRunningTask = some c →
      (s.record c).isTaskActive = true → Steps s .cexec { s with cexecPc := .insert e }
  | finished {e c : Nat} : s.cexecPc = .afterSwap e → s.cexecCurrentRunningTask = some c →
      (s.record c).isTaskActive = false → Steps s .cexec { s with cexecPc := .clear }
  | insertWait {e : Nat} : s.cexecPc = .insert e →
      (s.record e).ioOperationType ≠ .noIoOpRequested →
      Steps s .cexec { s.insertWait e with cexecPc := .clear }
  | insertReady {e : Nat} : s.cexecPc = .insert e →
      (s.record e).ioOperationType = .noIoOpRequested →
      Steps s .cexec { s.insertReady e with cexecPc := .clear }
  | cexecIdle {pc : CexecPc} : CexecIdle s pc → Steps s .cexec { s with cexecPc := pc }
  | cexecClear : s.cexecPc = .clear →
      Steps s .cexec { s with cexecCurrentRunningTask := none, cexecPc := .peek }
  | iexecPeek {e : Nat} {rc : Int} : s.iexecPc = .peek → s.waitQueue.head? = some e →
      Steps s (.iexec rc) { s with iexecPc := .setCurrent e }
  | iexecSetCurrent {e : Nat} {rc : Int} : s.iexecPc = .setCurrent e →
      Steps s (.iexec rc) { s with iexecCurrentRunningTask := some e, iexecPc := .pop e }
  | iexecPop {e : Nat} {rc : Int} : s.iexecPc = .pop e →
      Steps s (.iexec rc) { s with waitQueue := s.waitQueue.tail, iexecPc := .serve e }
  | serve {e : Nat} {rc : Int} : s.iexecPc = .serve e →
      Steps s (.iexec rc) { s.setRecord e ((s.record e).answer rc) with
        served := s.served ++ ((s.record e).request.map fun r => (e, r, rc)).toList
        iexecPc := .reset e }
  | reset {e : Nat} {rc : Int} : s.iexecPc = .reset e →
      Steps s (.iexec rc)
        { s.setRecord e { s.record e with ioOperationType := .noIoOpRequested } with
          iexecPc := .insert e }
  | iexecInsert {e : Nat} {rc : Int} : s.iexecPc = .insert e →
      Steps s (.iexec rc) { s.insertReady e with iexecPc := .clear }
  | iexecIdle {pc : IexecPc} {rc : Int} : IexecIdle s pc →
      Steps s (.iexec rc) { s with iexecPc := pc }
  | iexecClear {rc : Int} : s.iexecPc = .clear →
      Steps s (.iexec rc) { s with iexecCurrentRunningTask := none, iexecPc := .peek }

theorem queuesEmpty_iff : s.queuesEmpty = true ↔ s.taskReadyQueue = [] ∧ s.waitQueue = [] := by
  simp [State.queuesEmpty]

theorem steps_of_cexecStep (h : s.cexecStep = some s') : Steps s .cexec s' := by
  unfold State.cexecStep at h
  split at h
  · next hpc =>
      split at h
      · next e he =>
          obtain rfl := Option.some.inj h
          exact .peek hpc he
      · next hnone =>
          obtain rfl := Option.some.inj h
          exact .cexecIdle (.empty hpc (List.head?_eq_none_iff.mp hnone))
  · next hpc =>
      obtain rfl := Option.some.inj h
      exact .setCurrent hpc
  · next hpc =>
      obtain rfl := Option.some.inj h
      exact .pop hpc
  · next hpc =>
      obtain ⟨c, hc, rfl⟩ := Option.map_eq_some_iff.mp h
      exact .swap hpc hc
  · cases h
  · next hpc =>
      obtain ⟨c, hc, rfl⟩ := Option.map_eq_some_iff.mp h
      exact .assign hpc hc
  · next hpc =>
      obtain ⟨c, hc, rfl⟩ := Option.map_eq_some_iff.mp h
      exact .switch hpc hc
  · next hpc =>
      obtain ⟨c, hc, rfl⟩ := Option.map_eq_some_iff.mp h
      exact .result hpc hc
  · next hpc =>
      obtain ⟨c, hc, rfl⟩ := Option.map_eq_some_iff.mp h
      split
      · next hactive => exact .active hpc hc hactive
      · next hexited => exact .finished hpc hc (Bool.eq_false_iff.mpr hexited)
  · next hpc =>
      split at h
      · next htype =>
          obtain rfl := Option.some.inj h
          exact .insertWait hpc htype
      · next htype =>
          obtain rfl := Option.some.inj h
          exact .insertReady hpc (not_not.mp htype)
  · next hpc =>
      obtain rfl := Option.some.inj h
      split
      · next hempty =>
          obtain ⟨hready, hwait⟩ := queuesEmpty_iff.mp hempty
          exact .cexecIdle (.bothEmpty hpc hready hwait)
      · exact .cexecIdle (.notEmpty hpc)
  · next f n hpc =>
      obtain rfl := Option.some.inj h
      split
      · next hflag =>
          cases f with
          | isShutdown => exact .cexecIdle (.isShutdown hpc hflag)
          | cexec => exact .cexecIdle (.cexecNull hpc (Option.isNone_iff_eq_none.mp hflag))
          | iexec => exact .cexecIdle (.iexecNull hpc (Option.isNone_iff_eq_none.mp hflag))
      · exact .cexecIdle (.failed hpc)
  · next hpc =>
      obtain rfl := Option.some.inj h
      exact .cexecClear hpc
  · cases h

theorem steps_of_iexecStep {rc : Int} (h : s.iexecStep rc = some s') :
    Steps s (.iexec rc) s' := by
  unfold State.iexecStep at h
  split at h
  · next hpc =>
      split at h
      · next e he =>
          obtain rfl := Option.some.inj h
          exact .iexecPeek hpc he
      · next hnone =>
          obtain rfl := Option.some.inj h
          exact .iexecIdle (.empty hpc (List.head?_eq_none_iff.mp hnone))
  · next hpc =>
      obtain rfl := Option.some.inj h
      exact .iexecSetCurrent hpc
  · next hpc =>
      obtain rfl := Option.some.inj h
      exact .iexecPop hpc
  · next hpc =>
      obtain rfl := Option.some.inj h
      exact .serve hpc
  · next hpc =>
      obtain rfl := Option.some.inj h
      exact .reset hpc
  · next hpc =>
      obtain rfl := Option.some.inj h
      exact .iexecInsert hpc
  · next hpc =>
      obtain rfl := Option.some.inj h
      split
      · next hempty =>
          obtain ⟨hready, hwait⟩ := queuesEmpty_iff.mp hempty
          exact .iexecIdle (.bothEmpty hpc hready hwait)
      · exact .iexecIdle (.notEmpty hpc)
  · next f n hpc =>
      obtain rfl := Option.some.inj h
      split
      · next hflag =>
          cases f with
          | isShutdown => exact .iexecIdle (.isShutdown hpc hflag)
          | cexec => exact .iexecIdle (.cexecNull hpc (Option.isNone_iff_eq_none.mp hflag))
          | iexec => exact .iexecIdle (.iexecNull hpc (Option.isNone_iff_eq_none.mp hflag))
      · exact .iexecIdle (.failed hpc)
  · next hpc =>
      obtain rfl := Option.some.inj h
      exact .iexecClear hpc
  · cases h

theorem steps_of_step (h : s.step l = some s') : Steps s l s' := by
  cases l with
  | main =>
      simp only [State.step, State.mainStep] at h
      split at h
      · next hpc =>
          obtain rfl := Option.some.inj h
          exact .initCexec hpc
      · next hpc =>
          obtain rfl := Option.some.inj h
          exact .initIexec hpc
      · cases h
  | mainCreate junk =>
      simp only [State.step] at h
      split at h
      · next hpc =>
          obtain rfl := Option.some.inj h
          exact .mainCreate hpc
      · cases h
  | shutdown =>
      simp only [State.step] at h
      split at h
      · next hpc =>
          obtain rfl := Option.some.inj h
          exact .shutdown hpc
      · cases h
  | create junk =>
      simp only [State.step] at h
      split at h
      · next hpc =>
          obtain rfl := Option.some.inj h
          exact .create hpc
      · cases h
  | call c =>
      simp only [State.step, State.callStep] at h
      split at h
      · next hpc =>
          obtain rfl := Option.some.inj h
          exact .call hpc
      · cases h
  | cexec => exact steps_of_cexecStep h
  | iexec rc => exact steps_of_iexecStep h

/-! ## Stretches of a run -/

/-- The steps up to the first call of the first task: the main thread creates it,
and `cexecScheduler` switches to it. -/
def firstTask (junk : IoOperationData) : List Label :=
  [.main, .main, .mainCreate junk, .cexec, .cexec, .cexec, .cexec]

/-- The steps of a call that makes `n` assignments, from the task to the queue. -/
def callSteps (c : Call) (n : Nat) : List Label :=
  .call c :: List.replicate (n + 4) .cexec

/-- The steps of `iexecScheduler` that serve one task, whose system call returns
`rc`. -/
def serveSteps (rc : Int) : List Label :=
  [.iexec 0, .iexec 0, .iexec 0, .iexec rc, .iexec 0, .iexec 0, .iexec 0]

end OsConcepts.Sut
