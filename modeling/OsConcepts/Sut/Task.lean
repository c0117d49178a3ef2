import Mathlib.Init

/-!
# Tasks and their requests

The record of `queue.h` that the scheduler keeps for a task, and the task's side
of the calls of `sut.c`. A call is a list of assignments to fields of the record
`cexecCurrentRunningTask` points to, then a `swapcontext` to the scheduler; some
calls read a result from the record when they are resumed.

Pointers (`char *`) are numbers and `NULL` is 0. A saved context is the task whose
code it resumes and the point where it does. The stack and the queue's link field
are left out: a queue is a list.
-/

namespace OsConcepts.Sut

abbrev Ptr := Nat

/-- `enum ioOperationType`. -/
inductive IoOperationType where
  | noIoOpRequested
  | openOp
  | readOp
  | writeOp
  | closeOp
  deriving DecidableEq, Repr

structure OpenFile where
  fname : Ptr
  returnVal : Int
  deriving DecidableEq, Repr

structure ReadFile where
  fd : Int
  buf : Ptr
  size : Int
  returnVal : Ptr
  deriving DecidableEq, Repr

structure WriteFile where
  fd : Int
  buf : Ptr
  size : Int
  deriving DecidableEq, Repr

structure CloseFile where
  fd : Int
  deriving DecidableEq, Repr

/-- `struct ioOperationData`: a record of its own for each operation. -/
structure IoOperationData where
  openFile : OpenFile
  readFile : ReadFile
  writeFile : WriteFile
  closeFile : CloseFile
  deriving DecidableEq, Repr

/-- Where a saved context resumes: at the start of the task, after a call without
a result, or inside `sut_open` or `sut_read` before the result is read. -/
inductive Point where
  | entry
  | returned
  | openReturn
  | readReturn
  deriving DecidableEq, Repr

structure Context where
  task : Nat
  point : Point
  deriving DecidableEq, Repr

/-- `struct queue_entry`. -/
structure QueueEntry where
  context : Context
  isTaskActive : Bool
  ioOperationType : IoOperationType
  ioOperationData : IoOperationData
  deriving DecidableEq, Repr

/-- An I/O call of a task, and a system call made for one. -/
inductive Request where
  | openFile (fname : Ptr)
  | readFile (fd : Int) (buf : Ptr) (size : Int)
  | writeFile (fd : Int) (buf : Ptr) (size : Int)
  | closeFile (fd : Int)
  deriving DecidableEq, Repr

/-- What `iexecScheduler` decodes from a record: the system call it would make. -/
def QueueEntry.request (e : QueueEntry) : Option Request :=
  match e.ioOperationType with
  | .noIoOpRequested => none
  | .openOp => some (.openFile e.ioOperationData.openFile.fname)
  | .readOp =>
      let taskInfo := e.ioOperationData.readFile
      some (.readFile taskInfo.fd taskInfo.buf taskInfo.size)
  | .writeOp =>
      let taskInfo := e.ioOperationData.writeFile
      some (.writeFile taskInfo.fd taskInfo.buf taskInfo.size)
  | .closeOp => some (.closeFile e.ioOperationData.closeFile.fd)

/-- What `iexecScheduler` stores in the record when the system call has returned
`rc`. A failing `open` stores nothing. -/
def QueueEntry.answer (e : QueueEntry) (rc : Int) : QueueEntry :=
  match e.ioOperationType with
  | .openOp =>
      if 0 ≤ rc then
        { e with ioOperationData.openFile.returnVal := rc }
      else e
  | .readOp =>
      { e with ioOperationData.readFile.returnVal :=
          if 0 ≤ rc then e.ioOperationData.readFile.buf else 0 }
  | _ => e

/-- One assignment of a call to the record of the running task. -/
inductive Assign where
  | isTaskActive (b : Bool)
  | ioOperationType (type : IoOperationType)
  | openFileFname (fname : Ptr)
  | readFileFd (fd : Int)
  | readFileBuf (buf : Ptr)
  | readFileSize (size : Int)
  | writeFileFd (fd : Int)
  | writeFileBuf (buf : Ptr)
  | writeFileSize (size : Int)
  deriving DecidableEq, Repr

def Assign.apply (e : QueueEntry) : Assign → QueueEntry
  | .isTaskActive b => { e with isTaskActive := b }
  | .ioOperationType type => { e with ioOperationType := type }
  | .openFileFname fname => { e with ioOperationData.openFile.fname := fname }
  | .readFileFd fd => { e with ioOperationData.readFile.fd := fd }
  | .readFileBuf buf => { e with ioOperationData.readFile.buf := buf }
  | .readFileSize size => { e with ioOperationData.readFile.size := size }
  | .writeFileFd fd => { e with ioOperationData.writeFile.fd := fd }
  | .writeFileBuf buf => { e with ioOperationData.writeFile.buf := buf }
  | .writeFileSize size => { e with ioOperationData.writeFile.size := size }

/-- The body of a call: the assignments before its `swapcontext`, and where that
returns to. -/
structure Body where
  assigns : List Assign
  point : Point
  deriving DecidableEq, Repr

def sutYield : Body := ⟨[], .returned⟩

def sutExit : Body := ⟨[.isTaskActive false], .returned⟩

def sutOpen (fname : Ptr) : Body :=
  ⟨[.ioOperationType .openOp, .openFileFname fname], .openReturn⟩

def sutRead (fd : Int) (buf : Ptr) (size : Int) : Body :=
  ⟨[.ioOperationType .readOp, .readFileFd fd, .readFileBuf buf, .readFileSize size],
    .readReturn⟩

def sutWrite (fd : Int) (buf : Ptr) (size : Int) : Body :=
  ⟨[.ioOperationType .writeOp, .writeFileFd fd, .writeFileBuf buf, .writeFileSize size],
    .returned⟩

/-- The descriptor goes to `writeFile.fd`. -/
def sutClose (fd : Int) : Body := ⟨[.ioOperationType .closeOp, .writeFileFd fd], .returned⟩

/-- A call of a running task that gives up the processor. -/
inductive Call where
  | yield
  | exit
  | io (r : Request)
  deriving DecidableEq, Repr

def Call.body : Call → Body
  | .yield => sutYield
  | .exit => sutExit
  | .io (.openFile fname) => sutOpen fname
  | .io (.readFile fd buf size) => sutRead fd buf size
  | .io (.writeFile fd buf size) => sutWrite fd buf size
  | .io (.closeFile fd) => sutClose fd

def Call.request : Call → Option Request
  | .io r => some r
  | _ => none

end OsConcepts.Sut
