import OsConcepts.Sut.Queue
import OsConcepts.Sut.Scheduler

/-!
# The scheduler on linked queues

The same steps with `taskReadyQueue` and `waitQueue` as the linked queues of
`queue.c`, whose entries are the records and share one link field. Steps that touch
no queue are those of the scheduler. What goes through a bad pointer is no step.
-/

namespace OsConcepts.Sut

open OsConcepts

/-- The queues of `sut.c`. -/
inductive QueueName where
  | taskReadyQueue
  | waitQueue
  deriving DecidableEq

/-- The queues in memory, and all other globals and locals. The lists of `rest` are
not used. -/
structure Linked where
  links : TailQueues QueueName Nat
  rest : State

namespace Linked

variable (w : Linked)

/-- A step that touches no queue. -/
def keep (s : Option State) : Option Linked := s.map fun s => ⟨w.links, s⟩

/-- `queue_insert_tail(&taskReadyQueue, e)`. -/
def insertReady (e : Nat) : Option Linked :=
  (queueInsertTail w.links .taskReadyQueue e).map fun links =>
    ⟨links, { w.rest with insertions := w.rest.insertions + 1 }⟩

/-- `queue_insert_tail(&waitQueue, e)`. -/
def insertWait (e : Nat) : Option Linked :=
  (queueInsertTail w.links .waitQueue e).map fun links =>
    ⟨links, { w.rest with
      entered := w.rest.entered ++ [e]
      insertions := w.rest.insertions + 1 }⟩

/-- `queue_pop_head` on one of the queues. -/
def pop (q : QueueName) : Option Linked :=
  (queuePopHead w.links q).map fun (links, _) => ⟨links, w.rest⟩

def setCexecPc (pc : CexecPc) : Linked := { w with rest := { w.rest with cexecPc := pc } }

def setIexecPc (pc : IexecPc) : Linked := { w with rest := { w.rest with iexecPc := pc } }

/-- `sut_create`, whose new record is `malloced`. -/
def sutCreate (junk : IoOperationData) : Option Linked :=
  insertReady { w with
    rest := { w.rest.setRecord w.rest.malloced
        ⟨⟨w.rest.malloced, .entry⟩, true, .noIoOpRequested, junk⟩ with
      malloced := w.rest.malloced + 1
      created := w.rest.created ++ [w.rest.malloced] } } w.rest.malloced

/-- Both peeks give `NULL`. -/
def queuesEmpty : Bool :=
  (queuePeekFront w.links .taskReadyQueue).isNone && (queuePeekFront w.links .waitQueue).isNone

/-- `cexecScheduler`, and the calls of tasks on its thread. -/
def cexecStep : Option Linked :=
  match w.rest.cexecPc with
  | .peek =>
      match queuePeekFront w.links .taskReadyQueue with
      | some e => some (w.setCexecPc (.setCurrent e))
      | none => some (w.setCexecPc .snapshot)
  | .pop e => (w.pop .taskReadyQueue).map fun w => w.setCexecPc (.swap e)
  | .insert e =>
      if (w.rest.record e).ioOperationType ≠ .noIoOpRequested then
        (w.insertWait e).map fun w => w.setCexecPc .clear
      else
        (w.insertReady e).map fun w => w.setCexecPc .clear
  | .snapshot => some (w.setCexecPc
      (if w.queuesEmpty then .test .isShutdown w.rest.insertions else .clear))
  | _ => w.keep w.rest.cexecStep

/-- `iexecScheduler`. -/
def iexecStep (rc : Int) : Option Linked :=
  match w.rest.iexecPc with
  | .peek =>
      match queuePeekFront w.links .waitQueue with
      | some e => some (w.setIexecPc (.setCurrent e))
      | none => some (w.setIexecPc .snapshot)
  | .pop e => (w.pop .waitQueue).map fun w => w.setIexecPc (.serve e)
  | .insert e => (w.insertReady e).map fun w => w.setIexecPc .clear
  | .snapshot => some (w.setIexecPc
      (if w.queuesEmpty then .test .isShutdown w.rest.insertions else .clear))
  | _ => w.keep (w.rest.iexecStep rc)

/-- One step. -/
def step : Label → Option Linked
  | .mainCreate junk => if w.rest.mainPc = .calls then w.sutCreate junk else none
  | .create junk =>
      match w.rest.cexecPc with
      | .run _ _ => w.sutCreate junk
      | _ => none
  | .cexec => w.cexecStep
  | .iexec rc => w.iexecStep rc
  | .main => w.keep w.rest.mainStep
  | .shutdown => w.keep (w.rest.step .shutdown)
  | .call c => w.keep (w.rest.callStep c)

end Linked

/-- `sut_init` assigns what `queue_create` returned and calls `queue_init`; nothing is
known of the link fields. -/
def linkedSystem : System Linked Label where
  init w := w.rest = start ∧ ∃ next, w.links =
    queueInit (queueInit ⟨fun _ => queueCreate, next⟩ .taskReadyQueue) .waitQueue
  step w l w' := w.step l = some w'

end OsConcepts.Sut
