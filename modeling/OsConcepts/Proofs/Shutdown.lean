import OsConcepts.Proofs.TaskPlaces

/-!
# Shutting down

An executor exits when it has found both queues empty and after that, without the
lock, `isShutdown` set and no task with either executor. In between a task can go
from the other executor to a queue, behind the snapshot. As long as an executor
only leaves on a snapshot since which nothing was inserted, its test is right: an
empty queue stays empty, so a task would have to be with an executor all the time,
and the test would have seen it.
-/

namespace OsConcepts.Sut

open OsConcepts

variable {s s' : State} {l : Label}

/-- No executor has reached `pthread_exit` while a created task has not executed
`sut_exit`. -/
def NoneLost (s : State) : Prop :=
  s.cexecPc = .exit ∨ s.iexecPc = .exit → ∀ t ∈ s.created, (s.record t).isTaskActive = false

/-- The number of insertions at the snapshot, when the last flag is to be read. -/
def CexecPc.lastTest : CexecPc → Option Nat
  | .test .iexec n => some n
  | _ => none

def IexecPc.lastTest : IexecPc → Option Nat
  | .test .iexec n => some n
  | _ => none

/-- The condition on a step: an executor passes its exit test only when nothing has
been inserted in a queue since the snapshot of that test. -/
def SnapshotFresh (s : State) : Label → Prop
  | .cexec => ∀ n ∈ s.cexecPc.lastTest, s.iexecCurrentRunningTask = none → s.insertions = n
  | .iexec _ => ∀ n ∈ s.iexecPc.lastTest, s.iexecCurrentRunningTask = none → s.insertions = n
  | _ => True

instance (s : State) : DecidablePred (SnapshotFresh s)
  | .cexec => inferInstanceAs (Decidable (∀ n ∈ s.cexecPc.lastTest, _ = _ → _ = n))
  | .iexec _ => inferInstanceAs (Decidable (∀ n ∈ s.iexecPc.lastTest, _ = _ → _ = n))
  | .main | .mainCreate _ | .shutdown | .create _ | .call _ => .isTrue trivial

/-! ## An empty system stays empty -/

/-- After `sut_shutdown`, with no task in a queue or with an executor. -/
structure Quiet (s : State) : Prop where
  isShutdown : s.isShutdown = true
  ready : s.taskReadyQueue = []
  wait : s.waitQueue = []
  cexec : s.cexecPc.held = none
  iexec : s.iexecPc.held = none

theorem Quiet.allExited (h : Quiet s) (hc : Core s) :
    ∀ t ∈ s.created, (s.record t).isTaskActive = false := by
  intro t ht
  by_contra hactive
  have hlive : s.Live t := ⟨ht, by simpa using hactive⟩
  have hcount := hc.places t
  rw [count_places, h.ready, h.wait, cexecHeld_none h.cexec, iexecHeld_none h.iexec,
    if_pos hlive] at hcount
  cases hcount

/-- Where nothing is held and nothing is ready, `cexecScheduler` gets nothing. -/
theorem cexec_stays_free (hc : Core s) (hfree : s.cexecPc.held = none)
    (hready : s.taskReadyQueue = []) (hstep : s.step l = some s') : s'.cexecPc.held = none := by
  cases steps_of_step hstep with
  | call hpc | swap hpc | assign hpc | switch hpc | result hpc | active hpc | create hpc =>
      rw [hpc] at hfree
      cases hfree
  | @pop e hpc =>
      have hhead := hc.cexecPeeked e (by rw [hpc]; rfl)
      rw [hready] at hhead
      cases hhead
  | peek | setCurrent | finished | insertWait | insertReady | cexecClear => rfl
  | cexecIdle hidle => exact hidle.held.2.1
  | _ => exact hfree

theorem step_quiet (hc : Core s) (h : Quiet s) (hstep : s.step l = some s') : Quiet s' := by
  have hcexec := cexec_stays_free hc h.cexec h.ready hstep
  have hfree := h.cexec
  have hidle := h.iexec
  have hjoin := hc.shutdown h.isShutdown
  cases steps_of_step hstep with
  | initCexec hpc | initIexec hpc | mainCreate hpc | shutdown hpc => cases hjoin.symm.trans hpc
  | create hpc | call hpc | insertWait hpc | insertReady hpc =>
      rw [hpc] at hfree
      cases hfree
  | pop hpc => exact { h with
      ready := (congrArg List.tail h.ready :)
      cexec := hcexec }
  | serve hpc | reset hpc | iexecInsert hpc =>
      rw [hpc] at hidle
      cases hidle
  | @iexecPop e rc hpc =>
      have hhead := hc.iexecPeeked e (by rw [hpc]; rfl)
      rw [h.wait] at hhead
      cases hhead
  | iexecPeek | iexecSetCurrent | iexecClear => exact { h with iexec := rfl }
  | iexecIdle hi => exact { h with iexec := hi.held.2.1 }
  | _ => exact { h with cexec := hcexec }

/-! ## What a snapshot is worth -/

/-- During the test: as long as nothing was inserted the queues are empty, and
`isShutdown` was set when it was read. -/
structure Seen (s : State) (f : Flag) (n : Nat) : Prop where
  le : n ≤ s.insertions
  empty : n = s.insertions → s.taskReadyQueue = [] ∧ s.waitQueue = []
  isShutdown : f ≠ .isShutdown → s.isShutdown = true

/-- The number of insertions tells whether an empty queue may have got a task. -/
theorem queues_step (hstep : s.step l = some s') : s.insertions ≤ s'.insertions ∧
    (s'.insertions = s.insertions →
      (s.taskReadyQueue = [] → s'.taskReadyQueue = []) ∧
        (s.waitQueue = [] → s'.waitQueue = [])) := by
  cases steps_of_step hstep with
  | mainCreate | create | insertWait | insertReady | iexecInsert =>
      exact ⟨Nat.le_succ _, fun heq => absurd heq (Nat.succ_ne_self _)⟩
  | pop => exact ⟨Nat.le_refl _, fun _ => ⟨fun h => (congrArg List.tail h :), id⟩⟩
  | iexecPop => exact ⟨Nat.le_refl _, fun _ => ⟨id, fun h => (congrArg List.tail h :)⟩⟩
  | _ => exact ⟨Nat.le_refl _, fun _ => ⟨id, id⟩⟩

theorem shutdown_step (hstep : s.step l = some s') (h : s.isShutdown = true) :
    s'.isShutdown = true := by
  cases steps_of_step hstep with
  | shutdown => rfl
  | _ => exact h

theorem Seen.step {f : Flag} {n : Nat} (h : Seen s f n) (hstep : s.step l = some s') :
    Seen s' f n := by
  obtain ⟨hle, hsame⟩ := queues_step hstep
  refine ⟨Nat.le_trans h.le hle, fun hn => ?_, fun hf => shutdown_step hstep (h.isShutdown hf)⟩
  have heq : s'.insertions = s.insertions := Nat.le_antisymm (hn ▸ h.le) hle
  obtain ⟨hready, hwait⟩ := h.empty (hn.trans heq)
  exact ⟨(hsame heq).1 hready, (hsame heq).2 hwait⟩

/-- The invariant of the runs whose exits are on fresh snapshots. `iexecScheduler`
reads `cexecCurrentRunningTask` before its own, so what it saw must hold on. -/
structure Window (s : State) : Prop where
  cexec : ∀ f n, s.cexecPc = .test f n → Seen s f n
  iexec : ∀ f n, s.iexecPc = .test f n → Seen s f n
  free : ∀ n, s.iexecPc = .test .iexec n → n = s.insertions → s.cexecPc.held = none
  quiet : s.cexecPc = .exit ∨ s.iexecPc = .exit → Quiet s

theorem Window.start : Window start where
  cexec _ _ h := by cases h
  iexec _ _ h := by cases h
  free _ h := by cases h
  quiet h := by rcases h with h | h <;> cases h

theorem cexec_seen_step (h : Window s) (hstep : s.step l = some s') {f : Flag} {n : Nat}
    (hpc' : s'.cexecPc = .test f n) : Seen s' f n := by
  cases steps_of_step hstep with
  | cexecIdle hidle =>
      cases hidle with
      | bothEmpty hpc hready hwait =>
          obtain ⟨rfl, rfl⟩ := CexecPc.test.inj hpc'
          exact ⟨Nat.le_refl _, fun _ => ⟨hready, hwait⟩, fun hf => absurd rfl hf⟩
      | isShutdown hpc hset =>
          obtain ⟨rfl, rfl⟩ := CexecPc.test.inj hpc'
          have hseen := h.cexec _ _ hpc
          exact ⟨hseen.le, hseen.empty, fun _ => hset⟩
      | cexecNull hpc =>
          obtain ⟨rfl, rfl⟩ := CexecPc.test.inj hpc'
          have hseen := h.cexec _ _ hpc
          exact ⟨hseen.le, hseen.empty, fun _ => hseen.isShutdown nofun⟩
      | _ => cases hpc'
  | swap =>
      simp only [State.resume] at hpc'
      split at hpc' <;> cases hpc'
  | call | peek | setCurrent | pop | assign | switch | result | active | finished | insertWait
  | insertReady | cexecClear => cases hpc'
  | _ => exact (h.cexec f n hpc').step hstep

theorem iexec_seen_step (h : Window s) (hstep : s.step l = some s') {f : Flag} {n : Nat}
    (hpc' : s'.iexecPc = .test f n) : Seen s' f n := by
  cases steps_of_step hstep with
  | iexecIdle hidle =>
      cases hidle with
      | bothEmpty hpc hready hwait =>
          obtain ⟨rfl, rfl⟩ := IexecPc.test.inj hpc'
          exact ⟨Nat.le_refl _, fun _ => ⟨hready, hwait⟩, fun hf => absurd rfl hf⟩
      | isShutdown hpc hset =>
          obtain ⟨rfl, rfl⟩ := IexecPc.test.inj hpc'
          have hseen := h.iexec _ _ hpc
          exact ⟨hseen.le, hseen.empty, fun _ => hset⟩
      | cexecNull hpc =>
          obtain ⟨rfl, rfl⟩ := IexecPc.test.inj hpc'
          have hseen := h.iexec _ _ hpc
          exact ⟨hseen.le, hseen.empty, fun _ => hseen.isShutdown nofun⟩
      | _ => cases hpc'
  | iexecPeek | iexecSetCurrent | iexecPop | serve | reset | iexecInsert | iexecClear =>
      cases hpc'
  | _ => exact (h.iexec f n hpc').step hstep

/-- Once `cexecCurrentRunningTask` was read as `NULL`, `cexecScheduler` has no task
until something is inserted. -/
theorem free_step (hc : Core s) (h : Window s) (hstep : s.step l = some s') {n : Nat}
    (hpc' : s'.iexecPc = .test .iexec n) (hn : n = s'.insertions) : s'.cexecPc.held = none := by
  have hkeep : s.iexecPc = .test .iexec n → s'.cexecPc.held = none := by
    intro hpc
    have hseen := h.iexec _ _ hpc
    have hsame : n = s.insertions :=
      Nat.le_antisymm hseen.le (hn ▸ (queues_step hstep).1)
    exact cexec_stays_free hc (h.free n hpc hsame) (hseen.empty hsame).1 hstep
  cases steps_of_step hstep with
  | iexecIdle hidle =>
      cases hidle with
      | cexecNull hpc hnull =>
          show s.cexecPc.held = none
          cases hheld : s.cexecPc.held with
          | none => rfl
          | some e => cases hnull.symm.trans (hc.current_eq hheld)
      | _ => cases hpc'
  | iexecPeek | iexecSetCurrent | iexecPop | serve | reset | iexecInsert | iexecClear =>
      cases hpc'
  | _ => exact hkeep hpc'

/-- An exit on a fresh snapshot is an exit from an empty system. -/
theorem quiet_of_exit (hc : Core s) (h : Window s) (hok : SnapshotFresh s l)
    (hstep : s.step l = some s') (hexit : s'.cexecPc = .exit ∨ s'.iexecPc = .exit) : Quiet s' := by
  refine step_quiet hc ?_ hstep
  have hidle : s.iexecCurrentRunningTask = none → s.iexecPc.held = none := by
    intro hnull
    cases hpc : s.iexecPc with
    | serve e | reset e | insert e =>
        cases hnull.symm.trans (hc.iexecCurrent e (by rw [hpc]; rfl)).1
    | _ => rfl
  cases steps_of_step hstep with
  | @cexecIdle pc hi =>
      cases hi with
      | @iexecNull n hpc hnull =>
          have hseen := h.cexec _ _ hpc
          obtain ⟨hready, hwait⟩ := hseen.empty (hok n (by rw [hpc]; rfl) hnull).symm
          exact ⟨hseen.isShutdown nofun, hready, hwait, by rw [hpc]; rfl, hidle hnull⟩
      | _ => exact h.quiet (Or.inr (hexit.resolve_left fun hpc => by cases hpc))
  | @iexecIdle pc rc hi =>
      cases hi with
      | @iexecNull n hpc hnull =>
          have hseen := h.iexec _ _ hpc
          have hn := (hok n (by rw [hpc]; rfl) hnull).symm
          obtain ⟨hready, hwait⟩ := hseen.empty hn
          exact ⟨hseen.isShutdown nofun, hready, hwait, h.free n hpc hn, hidle hnull⟩
      | _ => exact h.quiet (Or.inl (hexit.resolve_right fun hpc => by cases hpc))
  | swap =>
      refine h.quiet (Or.inr (hexit.resolve_left fun hpc' => ?_))
      simp only [State.resume] at hpc'
      split at hpc' <;> cases hpc'
  | call | peek | setCurrent | pop | assign | switch | result | active | finished | insertWait
  | insertReady | cexecClear => exact h.quiet (Or.inr (hexit.resolve_left fun hpc => by cases hpc))
  | iexecPeek | iexecSetCurrent | iexecPop | serve | reset | iexecInsert | iexecClear =>
      exact h.quiet (Or.inl (hexit.resolve_right fun hpc => by cases hpc))
  | _ => exact h.quiet hexit

/-- In the runs where the exit tests are passed on fresh snapshots only, no task is
lost at shutdown. -/
theorem shutdown_loses_none (h : (system.guard SnapshotFresh).Reachable s) : NoneLost s := by
  obtain ⟨hc, hw⟩ : Core s ∧ Window s :=
    System.Reachable.invariant (S := system.guard SnapshotFresh) (I := fun s => Core s ∧ Window s)
      (fun _ hs => hs ▸ ⟨Core.start, Window.start⟩)
      (fun _ _ _ ⟨hc, hw⟩ hs => ⟨step_core hc hs.2,
        fun _ _ => cexec_seen_step hw hs.2, fun _ _ => iexec_seen_step hw hs.2,
        fun _ => free_step hc hw hs.2, quiet_of_exit hc hw hs.1 hs.2⟩) h
  exact fun hexit => (hw.quiet hexit).allExited hc

/-- A task that exits at once, and both executors exit after it. -/
theorem shutdown_after_exit :
    ∃ s, System.play (System.checked State.step SnapshotFresh)
        (firstTask ⟨⟨0, 0⟩, ⟨0, 0, 0, 0⟩, ⟨0, 0, 0⟩, ⟨0⟩⟩ ++ callSteps .exit 1 ++ [.shutdown] ++
          List.replicate 6 (.iexec 0) ++ List.replicate 4 .cexec ++
          List.replicate 5 (.iexec 0)) start = some s ∧
      s.cexecPc = .exit ∧ s.iexecPc = .exit ∧ s.created = [2] ∧ NoneLost s := by
  have hplay : ∃ s, System.play (System.checked State.step SnapshotFresh)
        (firstTask ⟨⟨0, 0⟩, ⟨0, 0, 0, 0⟩, ⟨0, 0, 0⟩, ⟨0⟩⟩ ++ callSteps .exit 1 ++ [.shutdown] ++
          List.replicate 6 (.iexec 0) ++ List.replicate 4 .cexec ++
          List.replicate 5 (.iexec 0)) start = some s ∧
      s.cexecPc = .exit ∧ s.iexecPc = .exit ∧ s.created = [2] := ⟨_, rfl, rfl, rfl, rfl⟩
  obtain ⟨s, hs, hcexec, hiexec, hcreated⟩ := hplay
  exact ⟨s, hs, hcexec, hiexec, hcreated, shutdown_loses_none (System.Reachable.play
    (System.guard_of_checked (S := system) fun _ _ _ h => h) (.start rfl) hs)⟩

/-- `cexecScheduler` finds both queues empty while the task is with
`iexecScheduler`; the task goes back to `taskReadyQueue`, the flags are read, and
`cexecScheduler` exits without it. -/
theorem exit_on_old_snapshot :
    ∃ s, System.play State.step
        (firstTask ⟨⟨0, 0⟩, ⟨0, 0, 0, 0⟩, ⟨0, 0, 0⟩, ⟨0⟩⟩ ++ callSteps (.io (.openFile 100)) 2 ++
          [.iexec 0, .iexec 0, .iexec 0, .iexec 3, .iexec 0, .cexec, .cexec, .iexec 0, .iexec 0,
            .shutdown, .cexec, .cexec, .cexec]) start = some s ∧
      system.Reachable s ∧ s.cexecPc = .exit ∧ s.taskReadyQueue = [2] ∧ ¬ NoneLost s := by
  have hplay : ∃ s, System.play State.step
        (firstTask ⟨⟨0, 0⟩, ⟨0, 0, 0, 0⟩, ⟨0, 0, 0⟩, ⟨0⟩⟩ ++ callSteps (.io (.openFile 100)) 2 ++
          [.iexec 0, .iexec 0, .iexec 0, .iexec 3, .iexec 0, .cexec, .cexec, .iexec 0, .iexec 0,
            .shutdown, .cexec, .cexec, .cexec]) start = some s ∧
      s.cexecPc = .exit ∧ s.taskReadyQueue = [2] ∧ s.created = [2] ∧
      (s.record 2).isTaskActive = true := ⟨_, rfl, rfl, rfl, rfl, rfl⟩
  obtain ⟨s, hs, hpc, hready, hcreated, hactive⟩ := hplay
  refine ⟨s, hs, System.Reachable.play (fun _ _ _ h => h) (.start rfl) hs, hpc, hready, ?_⟩
  intro h
  have hexited := h (Or.inl hpc) 2 (by rw [hcreated]; exact List.mem_singleton_self 2)
  rw [hactive] at hexited
  cases hexited

end OsConcepts.Sut
