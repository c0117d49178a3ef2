import Mathlib.Data.Fin.Basic
import OsConcepts.Lib.System

/-!
# The job table of the shell

`shelly.c` as far as its background jobs go: the table `jobsQueue`, the global
`fgPid`, the place in the main loop, and the children the kernel still keeps for
the shell. What a command prints, and what a child runs, is left out.

`MAX_NUM_JOBS` is 5 and `FG_PID_DEFAULT` is `INT_MIN`. The table is a global and
starts as zeros. An assignment to `jobsQueue` with an index outside the table
writes to other memory: it leaves the table as it is, and `writes` has the index.
-/

namespace OsConcepts.Shelly

open OsConcepts

/-- A child the shell has not waited for: running, or finished and unreaped. -/
structure Child where
  pid : Int
  background : Bool
  running : Bool
  deriving DecidableEq, Repr

/-- Where the shell is. `waitFg` is the `waitpid` of `fg_shelly`, with the local
`jobNum`; `waitCommand` is that of a command in the foreground. -/
inductive Pc where
  | prompt
  | waitFg (jobNum : Int)
  | waitCommand
  | exited
  deriving DecidableEq, Repr

/-- `INT_MIN`. -/
abbrev fgPidDefault : Int := -2147483648

end Shelly

/-- The globals of `shelly.c`, the place in `main`, and the kernel's side: the
unreaped children and the pids `SIGTERM` was sent to. `writes` lists the indices
`jobsQueue` was assigned at, latest first. -/
structure Shelly where
  jobsQueue : Fin 5 → Int
  fgPid : Int
  pc : Shelly.Pc
  children : List Shelly.Child
  signalled : List Int
  writes : List Int

namespace Shelly

/-- What can happen: a command is read at the prompt, `SIGINT` arrives, a child
finishes, or the `waitpid` the shell is in returns. -/
inductive Event where
  /-- `echo`, `cd`, `pwd`, `jobs`, or an empty line. -/
  | builtin
  | exit
  /-- The end of the input, or a `fork` that fails. -/
  | quit
  | fg (jobNum : Int)
  /-- Any other command; `pid` is what `fork` returns to the parent. -/
  | external (bg : Bool) (pid : Int)
  | sigint
  | terminate (pid : Int)
  | waitpid
  deriving DecidableEq, Repr

variable (s : Shelly)

/-- `jobsQueue[jobNum] = pid`. -/
def setJob (jobNum pid : Int) : Shelly :=
  { s with
    jobsQueue := fun i => if (i : Nat) = jobNum then pid else s.jobsQueue i
    writes := jobNum :: s.writes }

/-- The first slot with a property, as the `for` loops find it. -/
def firstJob (p : Int → Bool) : Option (Fin 5) := Fin.find? fun i => p (s.jobsQueue i)

/-- `addNewJob`. -/
def addNewJob (pid : Int) : Shelly :=
  match s.firstJob (· == 0) with
  | some i => s.setJob (i : Nat) pid
  | none => s

/-- `handle_sigint`. -/
def handleSigint : Shelly :=
  if s.fgPid ≠ 0 then
    match s.firstJob (· == s.fgPid) with
    | some i => { s with signalled := s.jobsQueue i :: s.signalled }.setJob (i : Nat) 0
    | none => s
  else s

/-- `exit_shelly`. -/
def exitShelly : Shelly :=
  { s with
    pc := .exited
    signalled := ((List.ofFn s.jobsQueue).filter (· ≠ 0)).reverse ++ s.signalled }

/-- The job `fg_shelly` selects: the one of its argument, or for an argument out
of range the first there is. The loop's `jobNum` is a variable of its own. -/
def selectJob (jobNum : Int) : Int :=
  if h : 0 ≤ jobNum ∧ jobNum < 5 then
    let pid := s.jobsQueue ⟨jobNum.toNat, by omega⟩
    if pid ≠ 0 then pid else fgPidDefault
  else
    match s.firstJob (· != 0) with
    | some i => s.jobsQueue i
    | none => fgPidDefault

/-- `fg_shelly` up to its `waitpid`. -/
def fgShelly (jobNum : Int) : Shelly :=
  let s := { s with fgPid := s.selectJob jobNum }
  if s.fgPid = fgPidDefault then s else { s with pc := .waitFg jobNum }

/-- The parent's side of an external command, up to the next prompt or to its
`waitpid`. -/
def external (bg : Bool) (pid : Int) : Shelly :=
  let s := { s with children := ⟨pid, bg, true⟩ :: s.children }
  if bg then { s with fgPid := fgPidDefault }.addNewJob pid
  else { s with fgPid := pid, pc := .waitCommand }

/-- `waitpid(pid, NULL, 0)` can return: the child is finished, or there is none. -/
def CanWait (pid : Int) : Prop := ∀ c ∈ s.children, c.pid = pid → c.running = false

instance (pid : Int) : Decidable (s.CanWait pid) :=
  inferInstanceAs (Decidable (∀ c ∈ s.children, _))

/-- The child is reaped. -/
def reap (pid : Int) : Shelly := { s with children := s.children.filter (·.pid ≠ pid) }

/-- The body of the loop of `removeFinishedJobs`: `waitpid` with `WNOHANG` returns
0 only for a child that runs, and reaps one that is finished. -/
def removeFinishedJob (i : Fin 5) : Shelly :=
  if s.jobsQueue i ≠ 0 ∧ s.CanWait (s.jobsQueue i) then
    (s.reap (s.jobsQueue i)).setJob (i : Nat) 0
  else s

/-- `removeFinishedJobs`, which is never called. -/
def removeFinishedJobs : Shelly := (List.finRange 5).foldl removeFinishedJob s

/-- A child finishes. -/
def finish (pid : Int) : Shelly :=
  { s with children := s.children.map fun c =>
      if c.pid = pid then { c with running := false } else c }

/-- The pid `fork` may return. -/
def Fresh (pid : Int) : Prop := 0 < pid ∧ ∀ c ∈ s.children, c.pid ≠ pid

instance (pid : Int) : Decidable (s.Fresh pid) := inferInstanceAs (Decidable (_ ∧ _))

/-- One event. -/
def step : Event → Option Shelly
  | .builtin => if s.pc = .prompt then some s else none
  | .exit => if s.pc = .prompt then some s.exitShelly else none
  | .quit => if s.pc = .prompt then some { s with pc := .exited } else none
  | .fg jobNum => if s.pc = .prompt then some (s.fgShelly jobNum) else none
  | .external bg pid =>
      if s.pc = .prompt ∧ s.Fresh pid then some (s.external bg pid) else none
  | .sigint => if s.pc ≠ .exited then some s.handleSigint else none
  | .terminate pid =>
      if ∃ c ∈ s.children, c.pid = pid ∧ c.running = true then some (s.finish pid) else none
  | .waitpid =>
      match s.pc with
      | .waitFg jobNum =>
          if s.CanWait s.fgPid then
            some { (s.reap s.fgPid).setJob jobNum 0 with fgPid := fgPidDefault, pc := .prompt }
          else none
      | .waitCommand =>
          if s.CanWait s.fgPid then
            some { s.reap s.fgPid with fgPid := fgPidDefault, pc := .prompt }
          else none
      | _ => none

/-- The shell before its first prompt. -/
def start : Shelly := ⟨fun _ => 0, fgPidDefault, .prompt, [], [], []⟩

/-- The shell under any sequence of events. -/
def system : System Shelly Event where
  init s := s = start
  step s e s' := s.step e = some s'

end Shelly

end OsConcepts
