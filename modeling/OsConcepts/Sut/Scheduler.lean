import OsConcepts.Lib.Journal
import OsConcepts.Lib.System
import OsConcepts.Sut.Task

/-!
# The two executors and the main thread

`sut.c`, one step for each mutex-protected section and for each access of a
thread to `isShutdown`, `cexecCurrentRunningTask` and `iexecCurrentRunningTask`.
A task runs on the thread of `cexecScheduler`; which call it makes next is left
to the run, so a run of the system is a run of any task programs under any
interleaving.

`malloc` returns a new number each time, and what is in the memory it returns is
left to the run too. A step that would go through a `NULL` pointer is no step.
-/

namespace OsConcepts.Sut

open OsConcepts

/-- The three globals of the exit test, in the order they are read. -/
inductive Flag where
  | isShutdown
  | cexec
  | iexec
  deriving DecidableEq, Repr

/-- The main thread: in `sut_init` after it has made both threads, between its
calls, and in `sut_shutdown` after it has set `isShutdown`. -/
inductive MainPc where
  | initCexec
  | initIexec
  | calls
  | join
  deriving DecidableEq, Repr

/-- Where `cexecScheduler` is. `e` is its local `taskAtFrontOfReadyQueue`, `t` the
task whose code runs. A passed test of a flag keeps the number of insertions there
had been at the snapshot of the queues. -/
inductive CexecPc where
  | peek
  | setCurrent (e : Nat)
  | pop (e : Nat)
  | swap (e : Nat)
  | run (e t : Nat)
  | call (e t : Nat) (body : Body)
  | result (e t : Nat) (point : Point)
  | afterSwap (e : Nat)
  | insert (e : Nat)
  | snapshot
  | test (flag : Flag) (seen : Nat)
  | clear
  | exit
  deriving DecidableEq, Repr

/-- Where `iexecScheduler` is. `e` is its local `taskAtFrontOfWaitQueue`. -/
inductive IexecPc where
  | peek
  | setCurrent (e : Nat)
  | pop (e : Nat)
  | serve (e : Nat)
  | reset (e : Nat)
  | insert (e : Nat)
  | snapshot
  | test (flag : Flag) (seen : Nat)
  | clear
  | exit
  deriving DecidableEq, Repr

/-- The value a call returned: to which task, from which of its I/O calls. -/
inductive Return where
  | openFile (task call : Nat) (value : Int)
  | readFile (task call : Nat) (value : Ptr)
  deriving DecidableEq, Repr

/-- The globals of `sut.c`, the records `malloc` gave out, and the place of each
thread. What follows `iexecPc` is no part of the program: the tasks created, the
I/O calls made, the entries of `waitQueue`, the system calls made for each task
with what they returned, the results the tasks got, each oldest first, and the
number of insertions in the queues. -/
structure State where
  taskReadyQueue : List Nat
  waitQueue : List Nat
  cexecCurrentRunningTask : Option Nat
  iexecCurrentRunningTask : Option Nat
  isShutdown : Bool
  record : Nat → QueueEntry
  malloced : Nat
  mainPc : MainPc
  cexecPc : CexecPc
  iexecPc : IexecPc
  created : List Nat
  calls : List (Nat × Request)
  entered : List Nat
  served : List (Nat × Request × Int)
  returns : List Return
  insertions : Nat

/-- What can happen. The main thread makes its calls, the running task makes one,
each executor goes on; `rc` is what a system call of `iexecScheduler` returns. -/
inductive Label where
  | main
  | mainCreate (junk : IoOperationData)
  | shutdown
  | create (junk : IoOperationData)
  | call (c : Call)
  | cexec
  | iexec (rc : Int)
  deriving DecidableEq, Repr

namespace State

variable (s : State)

/-- The I/O calls of one task. -/
def callsOf (t : Nat) : List Request := Journal.of s.calls t

/-- The system calls made for one task, with what they returned. -/
def servedOf (t : Nat) : List (Request × Int) := Journal.of s.served t

/-- An assignment to a record. -/
def setRecord (e : Nat) (r : QueueEntry) : State :=
  { s with record := fun i => if i = e then r else s.record i }

/-- `queue_insert_tail(&taskReadyQueue, e)`. -/
def insertReady (e : Nat) : State :=
  { s with
    taskReadyQueue := s.taskReadyQueue ++ [e]
    insertions := s.insertions + 1 }

/-- `queue_insert_tail(&waitQueue, e)`. -/
def insertWait (e : Nat) : State :=
  { s with
    waitQueue := s.waitQueue ++ [e]
    entered := s.entered ++ [e]
    insertions := s.insertions + 1 }

/-- `sut_create`, whose new record is `s.malloced`. -/
def sutCreate (junk : IoOperationData) : State :=
  { (s.setRecord s.malloced
      ⟨⟨s.malloced, .entry⟩, true, .noIoOpRequested, junk⟩).insertReady s.malloced with
    malloced := s.malloced + 1
    created := s.created ++ [s.malloced] }

/-- One flag of the exit test. -/
def flag : Flag → Bool
  | .isShutdown => s.isShutdown
  | .cexec => s.cexecCurrentRunningTask.isNone
  | .iexec => s.iexecCurrentRunningTask.isNone

/-- Both queues are empty. -/
def queuesEmpty : Bool := s.taskReadyQueue.isEmpty && s.waitQueue.isEmpty

/-- Where a context that is switched to resumes. -/
def resume (e : Nat) (c : Context) : CexecPc :=
  match c.point with
  | .entry | .returned => .run e c.task
  | point => .result e c.task point

/-- A call has returned what is in the record. -/
def returned (t : Nat) (r : QueueEntry) : Point → List Return
  | .openReturn => [.openFile t ((s.callsOf t).length - 1) r.ioOperationData.openFile.returnVal]
  | .readReturn => [.readFile t ((s.callsOf t).length - 1) r.ioOperationData.readFile.returnVal]
  | _ => []

/-- The rest of `sut_init`, after the threads were made. -/
def mainStep : Option State :=
  match s.mainPc with
  | .initCexec => some { s with
      cexecCurrentRunningTask := some s.malloced
      malloced := s.malloced + 1
      mainPc := .initIexec }
  | .initIexec => some { s with
      iexecCurrentRunningTask := some s.malloced
      malloced := s.malloced + 1
      mainPc := .calls }
  | _ => none

/-- `cexecScheduler`, and the calls of tasks on its thread. -/
def cexecStep : Option State :=
  match s.cexecPc with
  | .peek =>
      match s.taskReadyQueue.head? with
      | some e => some { s with cexecPc := .setCurrent e }
      | none => some { s with cexecPc := .snapshot }
  | .setCurrent e => some { s with cexecCurrentRunningTask := some e, cexecPc := .pop e }
  | .pop e => some { s with taskReadyQueue := s.taskReadyQueue.tail, cexecPc := .swap e }
  | .swap e => s.cexecCurrentRunningTask.map fun c =>
      { s with cexecPc := resume e (s.record c).context }
  | .run _ _ => none
  | .call e t ⟨a :: assigns, point⟩ => s.cexecCurrentRunningTask.map fun c =>
      { s.setRecord c (a.apply (s.record c)) with cexecPc := .call e t ⟨assigns, point⟩ }
  | .call e t ⟨[], point⟩ => s.cexecCurrentRunningTask.map fun c =>
      { s.setRecord c { s.record c with context := ⟨t, point⟩ } with cexecPc := .afterSwap e }
  | .result e t point => s.cexecCurrentRunningTask.map fun c =>
      { s with returns := s.returns ++ s.returned t (s.record c) point, cexecPc := .run e t }
  | .afterSwap e => s.cexecCurrentRunningTask.map fun c =>
      { s with cexecPc := if (s.record c).isTaskActive then .insert e else .clear }
  | .insert e =>
      if (s.record e).ioOperationType ≠ .noIoOpRequested then
        some { s.insertWait e with cexecPc := .clear }
      else
        some { s.insertReady e with cexecPc := .clear }
  | .snapshot => some { s with
      cexecPc := if s.queuesEmpty then .test .isShutdown s.insertions else .clear }
  | .test f seen => some { s with
      cexecPc := if s.flag f then
        match f with
        | .isShutdown => .test .cexec seen
        | .cexec => .test .iexec seen
        | .iexec => .exit
      else .clear }
  | .clear => some { s with cexecCurrentRunningTask := none, cexecPc := .peek }
  | .exit => none

/-- `iexecScheduler`. -/
def iexecStep (rc : Int) : Option State :=
  match s.iexecPc with
  | .peek =>
      match s.waitQueue.head? with
      | some e => some { s with iexecPc := .setCurrent e }
      | none => some { s with iexecPc := .snapshot }
  | .setCurrent e => some { s with iexecCurrentRunningTask := some e, iexecPc := .pop e }
  | .pop e => some { s with waitQueue := s.waitQueue.tail, iexecPc := .serve e }
  | .serve e => some { s.setRecord e ((s.record e).answer rc) with
      served := s.served ++ ((s.record e).request.map fun r => (e, r, rc)).toList
      iexecPc := .reset e }
  | .reset e => some { s.setRecord e { s.record e with ioOperationType := .noIoOpRequested } with
      iexecPc := .insert e }
  | .insert e => some { s.insertReady e with iexecPc := .clear }
  | .snapshot => some { s with
      iexecPc := if s.queuesEmpty then .test .isShutdown s.insertions else .clear }
  | .test f seen => some { s with
      iexecPc := if s.flag f then
        match f with
        | .isShutdown => .test .cexec seen
        | .cexec => .test .iexec seen
        | .iexec => .exit
      else .clear }
  | .clear => some { s with iexecCurrentRunningTask := none, iexecPc := .peek }
  | .exit => none

/-- The running task makes a call. -/
def callStep (c : Call) : Option State :=
  match s.cexecPc with
  | .run e t => some { s with
      calls := s.calls ++ (c.request.map fun r => (t, r)).toList
      cexecPc := .call e t c.body }
  | _ => none

/-- One step. -/
def step : Label → Option State
  | .main => s.mainStep
  | .mainCreate junk => if s.mainPc = .calls then some (s.sutCreate junk) else none
  | .shutdown =>
      if s.mainPc = .calls then some { s with isShutdown := true, mainPc := .join } else none
  | .create junk =>
      match s.cexecPc with
      | .run _ _ => some (s.sutCreate junk)
      | _ => none
  | .call c => s.callStep c
  | .cexec => s.cexecStep
  | .iexec rc => s.iexecStep rc

end State

/-- The threads have been made, and the globals are zero. -/
def start : State where
  taskReadyQueue := []
  waitQueue := []
  cexecCurrentRunningTask := none
  iexecCurrentRunningTask := none
  isShutdown := false
  record _ := ⟨⟨0, .entry⟩, false, .noIoOpRequested, ⟨⟨0, 0⟩, ⟨0, 0, 0, 0⟩, ⟨0, 0, 0⟩, ⟨0⟩⟩⟩
  malloced := 0
  mainPc := .initCexec
  cexecPc := .peek
  iexecPc := .peek
  created := []
  calls := []
  entered := []
  served := []
  returns := []
  insertions := 0

/-- The scheduler under any task programs and any interleaving. -/
def system : System State Label where
  init s := s = start
  step s l s' := s.step l = some s'

end OsConcepts.Sut
