import OsConcepts.Lib.TailQueue

/-!
# The queues of `queue.c`

The functions over the macros of `sys/queue.h`. A queue is the variable that holds
its head; the entries share the link field `entries`. What would write through a
pointer to memory that is gone, or read through `NULL`, is `none`.
-/

namespace OsConcepts.Sut

open OsConcepts

variable {κ α : Type} [DecidableEq κ] [DecidableEq α]

/-- `queue_create`: `STAILQ_HEAD_INITIALIZER` takes the address of the local
variable, which is gone when the head is returned. -/
def queueCreate : Head κ α := ⟨none, .gone⟩

def queueInit (m : TailQueues κ α) (q : κ) : TailQueues κ α := m.init q

def queueInsertHead (m : TailQueues κ α) (q : κ) (e : α) : TailQueues κ α := m.insertHead q e

def queueInsertTail (m : TailQueues κ α) (q : κ) (e : α) : Option (TailQueues κ α) :=
  m.insertTail q e

def queuePeekFront (m : TailQueues κ α) (q : κ) : Option α := m.first q

def queuePopHead (m : TailQueues κ α) (q : κ) : Option (TailQueues κ α × Option α) :=
  match queuePeekFront m q with
  | some elem => (m.removeHead q).map fun m => (m, some elem)
  | none => some (m, none)

/-- A call on a queue. -/
inductive QueueCall (κ α : Type) where
  | create (q : κ)
  | init (q : κ)
  | insertHead (q : κ) (e : α)
  | insertTail (q : κ) (e : α)
  | peekFront (q : κ)
  | popHead (q : κ)

/-- The memory after a call, and the entry it returns. -/
def QueueCall.exec (m : TailQueues κ α) : QueueCall κ α → Option (TailQueues κ α × Option α)
  | .create q => some (m.setHead q queueCreate, none)
  | .init q => some (queueInit m q, none)
  | .insertHead q e => some (queueInsertHead m q e, none)
  | .insertTail q e => (queueInsertTail m q e).map fun m => (m, none)
  | .peekFront q => some (m, queuePeekFront m q)
  | .popHead q => queuePopHead m q

/-- A sequence of calls, with what they return. -/
def results {σ ι ω : Type} (exec : σ → ι → Option (σ × ω)) : List ι → σ → Option (σ × List ω)
  | [], s => some (s, [])
  | c :: cs, s => (exec s c).bind fun (s, x) =>
      (results exec cs s).map fun (s, xs) => (s, x :: xs)

end OsConcepts.Sut
