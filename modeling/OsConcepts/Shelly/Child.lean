import OsConcepts.Lib.Processes
import OsConcepts.Shelly.Getcmd

/-!
# The child of a command

What `main` of `shelly.c` does between `fork` and `execvp`, as a program over the
system calls, and for which commands it forks at all. The child has its own copy of
`args`, with the words `getcmd` has put there; a `strcmp` or an `execvp` on NULL ends
it. The messages it prints are left out, and so are the permissions of a file it
creates. What the shell does for a built-in is in its own process and not here.
-/

namespace OsConcepts.Shelly

open OsConcepts

abbrev Word := List Byte

/-- A program over the system calls, broken off where a NULL is used. -/
abbrev ShellyM := Client (Syscall Word) Answer Unit

/-- A call of which only the return value matters. -/
def sys (c : Syscall Word) : ShellyM Int := do
  let r ← Client.ask c
  return r.ret

/-- `">"`. -/
def redirectWord : Word := [62]

/-- `"|"`. -/
def pipeWord : Word := [124]

/-- `args[i]`. -/
def Args.get (args : Args) (i : Nat) : Option Word := if h : i < 5 then args ⟨i, h⟩ else none

/-- `args[i] = NULL`. -/
def Args.clear (args : Args) (i : Nat) : Args := fun j => if j.val = i then none else args j

/-- The vector at `&args[i]`: the words up to the first NULL, `n` cells at most. -/
def Args.argvFrom (args : Args) : (n i : Nat) → List Word
  | 0, _ => []
  | n + 1, i =>
      match args.get i with
      | none => []
      | some word => word :: argvFrom args n (i + 1)

def Args.argv (args : Args) (i : Nat) : List Word := args.argvFrom (5 - i) i

/-- `exec_shelly(args[i], &args[i])`. -/
def execShelly (args : Args) (i : Nat) : ShellyM Unit :=
  match args.get i with
  | none => .fail ()
  | some cmd => do
      let execReturnCode ← sys (.exec cmd (args.argv i))
      if execReturnCode < 0 then
        let _ ← sys (.exit 1)
        return ()
      else
        return ()

/-- `redirection_shelly` from its `if` on, with what `open` and `dup2` have
returned: the `args` it leaves if it comes back. -/
def redirectOutput (args : Args) (redirectionIndex : Nat) (fd copied : Int) : ShellyM Args :=
  if copied ≥ 0 ∧ fd ≥ 0 then do
    let args := (args.clear redirectionIndex).clear (redirectionIndex + 1)
    let closed ← sys (.close fd)
    if closed = -1 then
      return args
    else
      execShelly args 0
      return args
  else do
    execShelly args 0
    return args

/-- `redirection_shelly`. -/
def redirectionShelly (args : Args) (redirectionIndex : Nat) : ShellyM Args := do
  let fd ← sys (.openFile (args.get (redirectionIndex + 1)))
  let copied ← sys (.dup2 fd 1)
  redirectOutput args redirectionIndex fd copied

/-- The child of `piping_shelly`, at the write end of the pipe. -/
def pipeWriter (args : Args) (readFd writeFd : Int) : ShellyM Unit := do
  let _ ← sys (.close readFd)
  let _ ← sys (.dup2 writeFd 1)
  let _ ← sys (.close writeFd)
  execShelly args 0

/-- Its parent, at the read end. -/
def pipeReader (args : Args) (redirectionIndex : Nat) (readFd writeFd : Int) : ShellyM Unit := do
  let _ ← sys (.close writeFd)
  let _ ← sys (.dup2 readFd 0)
  let _ ← sys (.close readFd)
  execShelly args (redirectionIndex + 1)

/-- `piping_shelly`, likewise. -/
def pipingShelly (args : Args) (redirectionIndex : Nat) : ShellyM Args := do
  let args := args.clear redirectionIndex
  let r ← Client.ask .pipe
  if r.ret = -1 then
    return args
  else
    let pid ← sys .fork
    if pid = 0 then
      pipeWriter args r.readFd r.writeFd
      return args
    else if pid = -1 then
      return args
    else
      pipeReader args redirectionIndex r.readFd r.writeFd
      return args

/-- The loop of the child over `args`, `n` turns to go, and the `exec_shelly`
behind it. -/
def childLoop : (n i : Nat) → Args → ShellyM Unit
  | 0, _, args => execShelly args 0
  | n + 1, i, args =>
      match args.get i with
      | none => .fail ()
      | some word => do
          let args ← if word = redirectWord then redirectionShelly args i else pure args
          match args.get i with
          | none => .fail ()
          | some word =>
              let args ← if word = pipeWord then pipingShelly args i else pure args
              childLoop n (i + 1) args

/-- The child of a command. -/
def Command.child (cmd : Command) : ShellyM Unit := childLoop cmd.cnt.toNat 0 cmd.args

/-- The words `main` compares the first one with: `echo`, `cd`, `pwd`, `exit`, `fg`
and `jobs`. -/
def builtIns : List Word :=
  [[101, 99, 104, 111], [99, 100], [112, 119, 100], [101, 120, 105, 116], [102, 103],
    [106, 111, 98, 115]]

/-- One of the `strcmp`s of `main` returns 0. -/
def isBuiltIn (word : Word) : Bool := builtIns.contains word

/-- What `main` forks for a command, the `fork` taken to succeed: the child, but
nothing for a built-in or without a word. -/
def Command.forked (cmd : Command) : Option (ShellyM Unit) :=
  if cmd.cnt > 0 then
    match cmd.args.get 0 with
    | none => none
    | some word => if isBuiltIn word then none else some cmd.child
  else none

/-- The processes a command starts with, on the descriptors of the shell. -/
def Command.start (cmd : Command) (base : Descriptors Word) : Kernel Word :=
  match cmd.forked with
  | none => .empty
  | some child => .single ⟨.running child, base⟩ 0

/-- What becomes of a command. -/
def launching (opens : Word → Prop) (base : Descriptors Word) (cmd : Command) :
    System (Kernel Word) Kernel.Event := Kernel.system opens (cmd.start base)

end OsConcepts.Shelly
