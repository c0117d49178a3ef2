import OsConcepts.Lib.Refinement
import OsConcepts.Proofs.IoRequests
import OsConcepts.Sut.Linked

/-!
# The linked scheduler is the scheduler

With the links of `queue.c` in place of lists the scheduler takes the same steps.
The two queues share the one link field of each record, so this rests on where the
tasks are: a task in one queue is in no other, and none is inserted that is in one.
-/

namespace OsConcepts.Sut

open OsConcepts

variable {w w' : Linked} {s s' : State} {l : Label} {xs ys : List Nat}

/-- The state with other lists. -/
def State.withQueues (s : State) (ready wait : List Nat) : State :=
  { s with taskReadyQueue := ready, waitQueue := wait }

/-- The links hold the lists of the state, and all else is the same. -/
structure Represents (w : Linked) (s : State) : Prop where
  rest : s = w.rest.withQueues s.taskReadyQueue s.waitQueue
  ready : w.links.Holds .taskReadyQueue s.taskReadyQueue
  wait : w.links.Holds .waitQueue s.waitQueue

/-- Both steps are impossible, or both are taken and lead to the same again. -/
inductive Together : Option Linked → Option State → Prop
  | stuck : Together none none
  | taken {w : Linked} {s : State} : Represents w s → Together (some w) (some s)

/-! ## Steps that touch no queue -/

theorem together_keep (hready : w.links.Holds .taskReadyQueue xs)
    (hwait : w.links.Holds .waitQueue ys) (o : Option State) :
    Together (w.keep o) (o.map fun s => s.withQueues xs ys) := by
  cases o with
  | none => exact .stuck
  | some s => exact .taken ⟨rfl, hready, hwait⟩

theorem mainStep_withQueues (s : State) (xs ys : List Nat) :
    (s.withQueues xs ys).mainStep = s.mainStep.map fun s => s.withQueues xs ys := by
  cases hpc : s.mainPc <;> simp only [State.mainStep, State.withQueues, hpc] <;> rfl

theorem callStep_withQueues (s : State) (xs ys : List Nat) (c : Call) :
    (s.withQueues xs ys).callStep c = (s.callStep c).map fun s => s.withQueues xs ys := by
  cases hpc : s.cexecPc <;> simp only [State.callStep, State.withQueues, hpc] <;> rfl

/-- The places of `cexecScheduler` where it looks at a queue. -/
def CexecPc.queues : CexecPc → Bool
  | .peek | .pop _ | .insert _ | .snapshot => true
  | _ => false

def IexecPc.queues : IexecPc → Bool
  | .peek | .pop _ | .insert _ | .snapshot => true
  | _ => false

theorem cexecStep_withQueues (s : State) (xs ys : List Nat) (h : s.cexecPc.queues = false) :
    (s.withQueues xs ys).cexecStep = s.cexecStep.map fun s => s.withQueues xs ys := by
  cases hpc : s.cexecPc with
  | peek | pop | insert | snapshot =>
      rw [hpc] at h
      cases h
  | call e t body =>
      have hpc' : (s.withQueues xs ys).cexecPc = .call e t body := hpc
      rw [State.cexecStep, State.cexecStep, hpc', hpc]
      obtain ⟨_ | ⟨a, assigns⟩, point⟩ := body
      · dsimp only
        rw [Option.map_map]
        rfl
      · dsimp only
        rw [Option.map_map]
        rfl
  | swap e =>
      have hpc' : (s.withQueues xs ys).cexecPc = .swap e := hpc
      rw [State.cexecStep, State.cexecStep, hpc', hpc]
      dsimp only
      rw [Option.map_map]
      rfl
  | result e t point =>
      have hpc' : (s.withQueues xs ys).cexecPc = .result e t point := hpc
      rw [State.cexecStep, State.cexecStep, hpc', hpc]
      dsimp only
      rw [Option.map_map]
      rfl
  | afterSwap e =>
      have hpc' : (s.withQueues xs ys).cexecPc = .afterSwap e := hpc
      rw [State.cexecStep, State.cexecStep, hpc', hpc]
      dsimp only
      rw [Option.map_map]
      rfl
  | _ =>
      simp only [State.cexecStep, State.withQueues, hpc]
      rfl

theorem iexecStep_withQueues (s : State) (xs ys : List Nat) (rc : Int)
    (h : s.iexecPc.queues = false) :
    (s.withQueues xs ys).iexecStep rc = (s.iexecStep rc).map fun s => s.withQueues xs ys := by
  cases hpc : s.iexecPc with
  | peek | pop | insert | snapshot =>
      rw [hpc] at h
      cases h
  | _ =>
      simp only [State.iexecStep, State.withQueues, hpc]
      rfl

/-! ## Steps on the queues -/

theorem queuesEmpty_eq (hready : w.links.Holds .taskReadyQueue xs)
    (hwait : w.links.Holds .waitQueue ys) :
    w.queuesEmpty = (w.rest.withQueues xs ys).queuesEmpty := by
  rw [Linked.queuesEmpty, queuePeekFront, queuePeekFront, hready.first, hwait.first]
  cases xs <;> cases ys <;> rfl

/-- A record in no queue goes to the end of `taskReadyQueue`. -/
theorem insertReady_holds (hready : w.links.Holds .taskReadyQueue xs)
    (hwait : w.links.Holds .waitQueue ys) {e : Nat} (hxs : e ∉ xs) (hys : e ∉ ys)
    (hdisj : List.Disjoint xs ys) :
    ∃ links, w.insertReady e = some ⟨links, { w.rest with insertions := w.rest.insertions + 1 }⟩ ∧
      links.Holds .taskReadyQueue (xs ++ [e]) ∧ links.Holds .waitQueue ys := by
  obtain ⟨links, hlinks, hholds, hother⟩ := hready.insertTail hxs
  refine ⟨links, ?_, hholds, hother .waitQueue ys nofun hys hdisj hwait⟩
  rw [Linked.insertReady, queueInsertTail, hlinks]
  rfl

/-- A record in no queue goes to the end of `waitQueue`. -/
theorem insertWait_holds (hready : w.links.Holds .taskReadyQueue xs)
    (hwait : w.links.Holds .waitQueue ys) {e : Nat} (hxs : e ∉ xs) (hys : e ∉ ys)
    (hdisj : List.Disjoint xs ys) :
    ∃ links, w.insertWait e = some ⟨links, { w.rest with
        entered := w.rest.entered ++ [e]
        insertions := w.rest.insertions + 1 }⟩ ∧
      links.Holds .taskReadyQueue xs ∧ links.Holds .waitQueue (ys ++ [e]) := by
  obtain ⟨links, hlinks, hholds, hother⟩ := hwait.insertTail hys
  refine ⟨links, ?_, hother .taskReadyQueue xs nofun hxs (List.disjoint_symm hdisj) hready, hholds⟩
  rw [Linked.insertWait, queueInsertTail, hlinks]
  rfl

/-- The record a queue begins with is popped. -/
theorem pop_holds {q : QueueName} {e : Nat} (h : w.links.Holds q (e :: xs)) :
    ∃ links, w.pop q = some ⟨links, w.rest⟩ ∧ links.Holds q xs ∧
      ∀ q' ys, q' ≠ q → w.links.Holds q' ys → links.Holds q' ys := by
  obtain ⟨links, hlinks, hholds, hother⟩ := h.removeHead
  refine ⟨links, ?_, hholds, hother⟩
  have hpeek : queuePeekFront w.links q = some e := h.first
  rw [Linked.pop, queuePopHead, hpeek]
  dsimp only
  rw [hlinks]
  rfl

/-- No task is in both queues. -/
theorem Core.disjoint (h : Core s) : List.Disjoint s.taskReadyQueue s.waitQueue := by
  intro t hready hwait
  have hcount := h.places t
  rw [count_places] at hcount
  have hr := List.count_pos_iff.mpr hready
  have hw := List.count_pos_iff.mpr hwait
  split at hcount <;> omega

theorem sutCreate_together (hready : w.links.Holds .taskReadyQueue xs)
    (hwait : w.links.Holds .waitQueue ys) (hc : Core (w.rest.withQueues xs ys))
    (junk : IoOperationData) :
    Together (w.sutCreate junk) (some ((w.rest.withQueues xs ys).sutCreate junk)) := by
  have hnew : w.rest.malloced ∉ w.rest.created :=
    malloced_not_created (s := w.rest.withQueues xs ys) hc
  have hxs : w.rest.malloced ∉ xs := fun hmem => hnew (hc.live_of_ready hmem).1
  have hys : w.rest.malloced ∉ ys := fun hmem => hnew (hc.live_of_wait hmem).1
  obtain ⟨links, hlinks, hready', hwait'⟩ := insertReady_holds
    (w := { w with
      rest := { w.rest.setRecord w.rest.malloced
          ⟨⟨w.rest.malloced, .entry⟩, true, .noIoOpRequested, junk⟩ with
        malloced := w.rest.malloced + 1
        created := w.rest.created ++ [w.rest.malloced] } })
    hready hwait hxs hys hc.disjoint
  rw [Linked.sutCreate, hlinks]
  exact .taken ⟨rfl, hready', hwait'⟩

theorem cexecStep_together (hready : w.links.Holds .taskReadyQueue xs)
    (hwait : w.links.Holds .waitQueue ys) (hc : Core (w.rest.withQueues xs ys)) :
    Together w.cexecStep (w.rest.withQueues xs ys).cexecStep := by
  have hsame : (w.rest.withQueues xs ys).cexecPc = w.rest.cexecPc := rfl
  cases hpc : w.rest.cexecPc with
  | peek =>
      have hpeek : queuePeekFront w.links .taskReadyQueue = xs.head? := hready.first
      rw [State.cexecStep, hsame, hpc]
      cases xs with
      | nil =>
          have hlinked : w.cexecStep = some (w.setCexecPc .snapshot) := by
            rw [Linked.cexecStep, hpc]
            dsimp only
            rw [hpeek]
            rfl
          rw [hlinked]
          exact .taken ⟨rfl, hready, hwait⟩
      | cons e xs =>
          have hlinked : w.cexecStep = some (w.setCexecPc (.setCurrent e)) := by
            rw [Linked.cexecStep, hpc]
            dsimp only
            rw [hpeek]
            rfl
          rw [hlinked]
          exact .taken ⟨rfl, hready, hwait⟩
  | pop e =>
      obtain ⟨rest, hxs⟩ := List.head?_eq_some_iff.mp (hc.cexecPeeked e (by rw [hsame, hpc]; rfl))
      obtain rfl : xs = e :: rest := hxs
      obtain ⟨links, hlinks, hholds, hother⟩ := pop_holds hready
      have hlinked : w.cexecStep = some (Linked.setCexecPc ⟨links, w.rest⟩ (.swap e)) := by
        rw [Linked.cexecStep, hpc]
        dsimp only
        rw [hlinks]
        rfl
      rw [hlinked, State.cexecStep, hsame, hpc]
      exact .taken ⟨rfl, hholds, hother _ ys nofun hwait⟩
  | insert e =>
      obtain ⟨hxs, hys, -⟩ := hc.cexec_alone (e := e) (by rw [hsame, hpc]; rfl)
      obtain ⟨m, hm, hready₁, hwait₁⟩ := insertWait_holds hready hwait hxs hys hc.disjoint
      obtain ⟨n, hn, hready₂, hwait₂⟩ := insertReady_holds hready hwait hxs hys hc.disjoint
      have hlinked : w.cexecStep = if (w.rest.record e).ioOperationType ≠ .noIoOpRequested then
            (w.insertWait e).map fun w => w.setCexecPc .clear
          else (w.insertReady e).map fun w => w.setCexecPc .clear := by
        rw [Linked.cexecStep, hpc]
      have hlist : (w.rest.withQueues xs ys).cexecStep =
          if (w.rest.record e).ioOperationType ≠ .noIoOpRequested then
            some { (w.rest.withQueues xs ys).insertWait e with cexecPc := .clear }
          else some { (w.rest.withQueues xs ys).insertReady e with cexecPc := .clear } := by
        rw [State.cexecStep, hsame, hpc]
        rfl
      rw [hlinked, hlist]
      split
      · rw [hm]
        exact .taken ⟨rfl, hready₁, hwait₁⟩
      · rw [hn]
        exact .taken ⟨rfl, hready₂, hwait₂⟩
  | snapshot =>
      have hlinked : w.cexecStep = some (w.setCexecPc
          (if w.queuesEmpty then .test .isShutdown w.rest.insertions else .clear)) := by
        rw [Linked.cexecStep, hpc]
      rw [hlinked, State.cexecStep, hsame, hpc, queuesEmpty_eq hready hwait]
      exact .taken ⟨rfl, hready, hwait⟩
  | _ =>
      rw [cexecStep_withQueues _ _ _ (by rw [hpc]; rfl)]
      have hlinked : w.cexecStep = w.keep w.rest.cexecStep := by rw [Linked.cexecStep, hpc]
      rw [hlinked]
      exact together_keep hready hwait _

theorem iexecStep_together (hready : w.links.Holds .taskReadyQueue xs)
    (hwait : w.links.Holds .waitQueue ys) (hc : Core (w.rest.withQueues xs ys)) (rc : Int) :
    Together (w.iexecStep rc) ((w.rest.withQueues xs ys).iexecStep rc) := by
  have hsame : (w.rest.withQueues xs ys).iexecPc = w.rest.iexecPc := rfl
  cases hpc : w.rest.iexecPc with
  | peek =>
      have hpeek : queuePeekFront w.links .waitQueue = ys.head? := hwait.first
      rw [State.iexecStep, hsame, hpc]
      cases ys with
      | nil =>
          have hlinked : w.iexecStep rc = some (w.setIexecPc .snapshot) := by
            rw [Linked.iexecStep, hpc]
            dsimp only
            rw [hpeek]
            rfl
          rw [hlinked]
          exact .taken ⟨rfl, hready, hwait⟩
      | cons e ys =>
          have hlinked : w.iexecStep rc = some (w.setIexecPc (.setCurrent e)) := by
            rw [Linked.iexecStep, hpc]
            dsimp only
            rw [hpeek]
            rfl
          rw [hlinked]
          exact .taken ⟨rfl, hready, hwait⟩
  | pop e =>
      obtain ⟨rest, hys⟩ := List.head?_eq_some_iff.mp (hc.iexecPeeked e (by rw [hsame, hpc]; rfl))
      obtain rfl : ys = e :: rest := hys
      obtain ⟨links, hlinks, hholds, hother⟩ := pop_holds hwait
      have hlinked : w.iexecStep rc = some (Linked.setIexecPc ⟨links, w.rest⟩ (.serve e)) := by
        rw [Linked.iexecStep, hpc]
        dsimp only
        rw [hlinks]
        rfl
      rw [hlinked, State.iexecStep, hsame, hpc]
      exact .taken ⟨rfl, hother _ xs nofun hready, hholds⟩
  | insert e =>
      obtain ⟨hxs, hys, -⟩ := hc.iexec_alone (e := e) (by rw [hsame, hpc]; rfl)
      obtain ⟨m, hm, hready', hwait'⟩ := insertReady_holds hready hwait hxs hys hc.disjoint
      have hlinked : w.iexecStep rc = (w.insertReady e).map fun w => w.setIexecPc .clear := by
        rw [Linked.iexecStep, hpc]
      rw [hlinked, hm, State.iexecStep, hsame, hpc]
      exact .taken ⟨rfl, hready', hwait'⟩
  | snapshot =>
      have hlinked : w.iexecStep rc = some (w.setIexecPc
          (if w.queuesEmpty then .test .isShutdown w.rest.insertions else .clear)) := by
        rw [Linked.iexecStep, hpc]
      rw [hlinked, State.iexecStep, hsame, hpc, queuesEmpty_eq hready hwait]
      exact .taken ⟨rfl, hready, hwait⟩
  | _ =>
      rw [iexecStep_withQueues _ _ _ _ (by rw [hpc]; rfl)]
      have hlinked : w.iexecStep rc = w.keep (w.rest.iexecStep rc) := by
        rw [Linked.iexecStep, hpc]
      rw [hlinked]
      exact together_keep hready hwait _

/-- The linked scheduler and the scheduler step together. -/
theorem step_together (h : Represents w s) (hc : Core s) (l : Label) :
    Together (w.step l) (s.step l) := by
  obtain ⟨hrest, hready, hwait⟩ := h
  generalize s.taskReadyQueue = xs at hrest hready
  generalize s.waitQueue = ys at hrest hwait
  subst hrest
  cases l with
  | main =>
      rw [Linked.step, State.step, mainStep_withQueues]
      exact together_keep hready hwait _
  | mainCreate junk =>
      rw [Linked.step, State.step]
      show Together _ (if w.rest.mainPc = .calls then _ else none)
      split
      · exact sutCreate_together hready hwait hc junk
      · exact .stuck
  | shutdown =>
      rw [Linked.step, State.step, State.step]
      show Together (w.keep (if w.rest.mainPc = .calls then _ else none))
        (if w.rest.mainPc = .calls then _ else none)
      split
      · exact .taken ⟨rfl, hready, hwait⟩
      · exact .stuck
  | create junk =>
      have hsame : (w.rest.withQueues xs ys).cexecPc = w.rest.cexecPc := rfl
      rw [Linked.step, State.step, hsame]
      cases w.rest.cexecPc with
      | run e t => exact sutCreate_together hready hwait hc junk
      | _ => exact .stuck
  | call c =>
      rw [Linked.step, State.step, callStep_withQueues]
      exact together_keep hready hwait _
  | cexec => exact cexecStep_together hready hwait hc
  | iexec rc => exact iexecStep_together hready hwait hc rc

/-! ## Runs -/

theorem Together.left {o : Option State} (h : Together (some w) o) :
    ∃ s, o = some s ∧ Represents w s := by
  cases h with
  | taken h => exact ⟨_, rfl, h⟩

theorem Together.right {o : Option Linked} (h : Together o (some s)) :
    ∃ w, o = some w ∧ Represents w s := by
  cases h with
  | taken h => exact ⟨_, rfl, h⟩

theorem Together.isSome {o : Option Linked} {o' : Option State} (h : Together o o') :
    o.isSome = o'.isSome := by
  cases h <;> rfl

/-- What `sut_init` leaves in the queues, whatever the link fields hold. -/
theorem represents_start (next : Nat → Option Nat) : Represents ⟨queueInit (queueInit
    ⟨fun _ => queueCreate, next⟩ .taskReadyQueue) .waitQueue, start⟩ start where
  rest := rfl
  ready := (TailQueues.holds_init _ _).init_ne nofun
  wait := TailQueues.holds_init _ _

/-- Each linked step is a step on lists. -/
theorem linked_simulates :
    linkedSystem.Simulates system id fun w s => Represents w s ∧ Core s where
  init := by
    rintro ⟨links, rest⟩ ⟨rfl, next, rfl⟩
    exact ⟨start, rfl, represents_start next, Core.start⟩
  step := by
    intro w s l w' ⟨h, hc⟩ hstep
    have htogether := step_together h hc l
    rw [hstep] at htogether
    obtain ⟨s', hs', h'⟩ := htogether.left
    exact ⟨s', hs', h', step_core hc hs'⟩

/-- Each step on lists is a linked step. -/
theorem simulates_linked :
    system.Simulates linkedSystem id fun s w => Represents w s ∧ Core s where
  init := by
    rintro s rfl
    exact ⟨_, ⟨rfl, fun _ => none, rfl⟩, represents_start _, Core.start⟩
  step := by
    intro s w l s' ⟨h, hc⟩ hstep
    have htogether := step_together h hc l
    rw [hstep] at htogether
    obtain ⟨w', hw', h'⟩ := htogether.right
    exact ⟨w', hw', h', step_core hc hstep⟩

/-- The scheduler on the links of `queue.c` runs as on lists: every run of the one is
a run of the other with the same steps, the links hold the lists, and where a step is
possible on the lists no bad pointer stops it. -/
theorem linked_runs {tr : List Label} :
    (∀ w, linkedSystem.Run tr w → ∃ s, system.Run tr s ∧ Represents w s ∧
      ∀ l, (w.step l).isSome = (s.step l).isSome) ∧
    (∀ s, system.Run tr s → ∃ w, linkedSystem.Run tr w ∧ Represents w s) := by
  refine ⟨fun w hrun => ?_, fun s hrun => ?_⟩
  · obtain ⟨s, hs, h, hc⟩ := linked_simulates.run hrun
    rw [List.map_id] at hs
    exact ⟨s, hs, h, fun l => (step_together h hc l).isSome⟩
  · obtain ⟨w, hw, h, -⟩ := simulates_linked.run hrun
    rw [List.map_id] at hw
    exact ⟨w, hw, h⟩

/-- Two tasks are created and the first is popped. -/
def twoTasks : List Label :=
  [.main, .main, .mainCreate ⟨⟨0, 0⟩, ⟨0, 0, 0, 0⟩, ⟨0, 0, 0⟩, ⟨0⟩⟩,
    .mainCreate ⟨⟨0, 0⟩, ⟨0, 0, 0, 0⟩, ⟨0, 0, 0⟩, ⟨0⟩⟩, .cexec, .cexec, .cexec]

/-- The link fields held an old address. -/
theorem linked_runs_two :
    ∃ w, linkedSystem.Run twoTasks.reverse w ∧ w.links.first .taskReadyQueue = some 3 ∧
      ∃ s, system.Run twoTasks.reverse s ∧ Represents w s ∧
        ∀ l, (w.step l).isSome = (s.step l).isSome := by
  have hplay : ∃ w, System.play Linked.step twoTasks ⟨queueInit (queueInit
        ⟨fun _ => queueCreate, fun _ => some 7⟩ .taskReadyQueue) .waitQueue, start⟩ = some w ∧
      w.links.first .taskReadyQueue = some 3 := ⟨_, rfl, rfl⟩
  obtain ⟨w, hw, hfirst⟩ := hplay
  have hrun : linkedSystem.Run twoTasks.reverse w :=
    System.Run.play (S := linkedSystem) (fun _ _ _ h => h) (.start ⟨rfl, _, rfl⟩) hw
  exact ⟨w, hrun, hfirst, linked_runs.1 w hrun⟩

end OsConcepts.Sut
