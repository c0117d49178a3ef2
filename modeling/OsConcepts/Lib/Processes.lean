import Mathlib.Data.Nat.Find
import Mathlib.Logic.Function.Basic
import Mathlib.Logic.Relation
import Mathlib.Order.GameAdd
import Mathlib.Tactic.Push
import OsConcepts.Lib.Client
import OsConcepts.Lib.System

/-!
# Processes and their descriptors

Processes that call the kernel for descriptors, pipes and other processes. The
code of a process is a `Client` of the system calls; `fork` answers it twice,
with 0 in the child, and a process that has become another program is known by
its arguments only. The processes take their steps in any order.

A process that neither forks nor makes a pipe any more is `Solo`. What it ends up
as can be told from its code: `Ends` is that judgement, with a rule for each kind
of call. Whatever the others do, it goes the way it would go alone
(`Staffed.step`); one that is not `Settled` can move (`Solo.progress`), and
processes cannot move for ever (`advances_acc`).
-/

namespace OsConcepts

variable {W : Type*}

/-- What a descriptor refers to. The descriptors a process was given are told
apart by a number, and so are pipes. -/
inductive Object (W : Type*) where
  | given (n : Nat)
  | file (path : W)
  | readEnd (p : Nat)
  | writeEnd (p : Nat)

abbrev Descriptors (W : Type*) := Nat → Option (Object W)

namespace Descriptors

variable (fds : Descriptors W)

/-- The descriptor a call that makes one takes. -/
def Lowest (d : Nat) : Prop := fds d = none ∧ ∀ e, e < d → fds e ≠ none

/-- The number is that of an open descriptor. -/
def IsOpen (fd : Int) (d : Nat) (x : Object W) : Prop := fd = d ∧ fds d = some x

def set (d : Nat) (x : Option (Object W)) : Descriptors W := Function.update fds d x

@[simp] theorem set_self {d : Nat} {x : Option (Object W)} : fds.set d x d = x :=
  Function.update_self ..

theorem set_ne {d e : Nat} {x : Option (Object W)} (h : e ≠ d) : fds.set d x e = fds e :=
  Function.update_of_ne h ..

@[simp] theorem set_set {d : Nat} {x y : Option (Object W)} : (fds.set d x).set d y = fds.set d y :=
  Function.update_idem ..

theorem set_comm {d e : Nat} {x y : Option (Object W)} (h : d ≠ e) :
    (fds.set d x).set e y = (fds.set e y).set d x := Function.update_comm h ..

theorem set_eq_self {d : Nat} {x : Option (Object W)} (h : fds d = x) : fds.set d x = fds := by
  rw [set, ← h, Function.update_eq_self]

/-- A descriptor taken for a while leaves nothing behind. -/
theorem set_none_of_set {d e : Nat} {x y : Option (Object W)} (hd : fds d = none) (h : d ≠ e) :
    ((fds.set d x).set e y).set d none = fds.set e y := by
  rw [set_comm _ h, set_set, set_comm _ (Ne.symm h), set_eq_self _ hd]

theorem exists_lowest {d : Nat} (h : fds d = none) : ∃ d, fds.Lowest d := by
  classical
  have hex : ∃ d, fds d = none := ⟨d, h⟩
  exact ⟨Nat.find hex, Nat.find_spec hex, fun e he => Nat.find_min hex he⟩

end Descriptors

/-- The calls; a path may be NULL. -/
inductive Syscall (W : Type*) where
  | openFile (path : Option W)
  | close (fd : Int)
  | dup2 (fd fd' : Int)
  | pipe
  | fork
  | exec (path : W) (argv : List W)
  | exit (status : Int)

/-- What a call returns, and the two descriptors of a pipe. -/
structure Answer where
  ret : Int
  readFd : Int := -1
  writeFd : Int := -1

/-- What the calls on descriptors answer and make of them. The paths that can be
opened for writing are given. -/
inductive Syscall.Answered (opens : W → Prop) :
    Syscall W → Descriptors W → Answer → Descriptors W → Prop
  | opened {fds : Descriptors W} {path : W} {d : Nat} : opens path → fds.Lowest d →
      Answered opens (.openFile (some path)) fds { ret := d } (fds.set d (some (.file path)))
  | notOpened {fds : Descriptors W} {path : Option W} : (∀ w, path = some w → ¬ opens w) →
      Answered opens (.openFile path) fds { ret := -1 } fds
  | full {fds : Descriptors W} {path : Option W} : (∀ d, fds d ≠ none) →
      Answered opens (.openFile path) fds { ret := -1 } fds
  | closed {fds : Descriptors W} {fd : Int} {d : Nat} {x : Object W} : fds.IsOpen fd d x →
      Answered opens (.close fd) fds { ret := 0 } (fds.set d none)
  | notClosed {fds : Descriptors W} {fd : Int} : (∀ d x, ¬ fds.IsOpen fd d x) →
      Answered opens (.close fd) fds { ret := -1 } fds
  | copied {fds : Descriptors W} {fd : Int} {d d' : Nat} {x : Object W} : fds.IsOpen fd d x →
      Answered opens (.dup2 fd d') fds { ret := d' } (fds.set d' (some x))
  | notCopied {fds : Descriptors W} {fd fd' : Int} : (∀ d x, ¬ fds.IsOpen fd d x) ∨ fd' < 0 →
      Answered opens (.dup2 fd fd') fds { ret := -1 } fds

/-- A process runs its code, has become a program, or is gone. -/
inductive Activity (W : Type*) where
  | running (code : Client (Syscall W) Answer Unit Unit)
  | program (argv : List W)
  | exited (status : Int)

structure Process (W : Type*) where
  activity : Activity W
  fds : Descriptors W

namespace Process

/-- What a process may do by itself. -/
inductive Moves (opens : W → Prop) : Process W → Process W → Prop
  | call {c : Syscall W} {next : Answer → Client (Syscall W) Answer Unit Unit}
      {fds fds' : Descriptors W} {r : Answer} : c.Answered opens fds r fds' →
      Moves opens ⟨.running (.call c next), fds⟩ ⟨.running (next r), fds'⟩
  | exec {path : W} {argv : List W} {next : Answer → Client (Syscall W) Answer Unit Unit}
      {fds : Descriptors W} :
      Moves opens ⟨.running (.call (.exec path argv) next), fds⟩ ⟨.program argv, fds⟩
  | execFails {path : W} {argv : List W} {next : Answer → Client (Syscall W) Answer Unit Unit}
      {fds : Descriptors W} :
      Moves opens ⟨.running (.call (.exec path argv) next), fds⟩ ⟨.running (next { ret := -1 }), fds⟩
  | exit {status : Int} {next : Answer → Client (Syscall W) Answer Unit Unit}
      {fds : Descriptors W} :
      Moves opens ⟨.running (.call (.exit status) next), fds⟩ ⟨.exited status, fun _ => none⟩

/-- There is no call to make. -/
def Settled (P : Process W) : Prop := ∀ c next, P.activity ≠ .running (.call c next)

/-- From here on by itself, the process neither forks nor makes a pipe. -/
def Solo (opens : W → Prop) (P : Process W) : Prop :=
  ∀ P', Relation.ReflTransGen (Moves opens) P P' →
    ∀ c next, P'.activity = .running (.call c next) → c ≠ .pipe ∧ c ≠ .fork

variable {opens : W → Prop} {P P' : Process W}

theorem Solo.moves (hs : P.Solo opens) (h : Relation.ReflTransGen (Moves opens) P P') :
    P'.Solo opens := fun P'' h' => hs P'' (h.trans h')

/-- A solo process is settled or can move. -/
theorem Solo.progress (hs : P.Solo opens) (hn : ¬ P.Settled) : ∃ P', P.Moves opens P' := by
  unfold Settled at hn
  push Not at hn
  obtain ⟨c, next, hactivity⟩ := hn
  obtain ⟨hpipe, hfork⟩ := hs P .refl c next hactivity
  obtain ⟨activity, fds⟩ := P
  cases hactivity
  by_cases hanswer : ∃ r fds', c.Answered opens fds r fds'
  · obtain ⟨r, fds', h⟩ := hanswer
    exact ⟨_, .call h⟩
  cases c with
  | openFile path =>
      by_cases hfull : ∀ d, fds d ≠ none
      · exact absurd ⟨_, _, .full hfull⟩ hanswer
      · push Not at hfull
        obtain ⟨d, hd⟩ := hfull
        obtain ⟨d, hd⟩ := fds.exists_lowest hd
        by_cases hopens : ∃ w, path = some w ∧ opens w
        · obtain ⟨w, rfl, hw⟩ := hopens
          exact absurd ⟨_, _, .opened hw hd⟩ hanswer
        · exact absurd ⟨_, _, .notOpened fun w hw ho => hopens ⟨w, hw, ho⟩⟩ hanswer
  | close fd =>
      by_cases hopen : ∃ d x, fds.IsOpen fd d x
      · obtain ⟨d, x, h⟩ := hopen
        exact absurd ⟨_, _, .closed h⟩ hanswer
      · exact absurd ⟨_, _, .notClosed fun d x h => hopen ⟨d, x, h⟩⟩ hanswer
  | dup2 fd fd' =>
      by_cases hopen : (∃ d x, fds.IsOpen fd d x) ∧ 0 ≤ fd'
      · obtain ⟨⟨d, x, h⟩, hpos⟩ := hopen
        obtain ⟨d', rfl⟩ := Int.eq_ofNat_of_zero_le hpos
        exact absurd ⟨_, _, .copied h⟩ hanswer
      · refine absurd ⟨_, _, .notCopied ?_⟩ hanswer
        by_cases hpos : fd' < 0
        · exact Or.inr hpos
        · exact Or.inl fun d x h => hopen ⟨⟨d, x, h⟩, by omega⟩
  | pipe => exact absurd rfl hpipe
  | fork => exact absurd rfl hfork
  | exec path argv => exact ⟨_, .exec⟩
  | exit status => exact ⟨_, .exit⟩

/-! ## What a process ends up as -/

/-- A process is solo and, where it settles, meets a condition. -/
def Ends (opens : W → Prop) (P : Process W) (Q : Process W → Prop) : Prop :=
  P.Solo opens ∧ ∀ P', Relation.ReflTransGen (Moves opens) P P' → P'.Settled → Q P'

section

variable {Q : Process W → Prop} {c : Syscall W} {fds : Descriptors W}
  {next : Answer → Client (Syscall W) Answer Unit Unit}

theorem not_settled : ¬ (⟨.running (.call c next), fds⟩ : Process W).Settled := fun h => h _ _ rfl

theorem Settled.not_moves (h : P.Settled) : ¬ P.Moves opens P' := by
  intro hmove
  cases hmove with
  | call => exact not_settled h
  | exec => exact not_settled h
  | execFails => exact not_settled h
  | exit => exact not_settled h

/-- A process cannot move for ever: each move is one call of its code. -/
theorem moves_acc (P : Process W) : Acc (fun P' P => Moves opens P P') P := by
  have hstay : ∀ P : Process W, P.Settled → Acc (fun P' P => Moves opens P P') P :=
    fun P hset => .intro P fun P' hmove => absurd hmove hset.not_moves
  obtain ⟨activity, fds⟩ := P
  cases activity with
  | program argv => exact hstay _ nofun
  | exited status => exact hstay _ nofun
  | running code =>
      induction code generalizing fds with
      | done a => exact hstay _ nofun
      | fail e => exact hstay _ nofun
      | call c next ih =>
          refine .intro _ fun P' hmove => ?_
          cases hmove with
          | call => exact ih _ _
          | exec => exact hstay _ nofun
          | execFails => exact ih _ _
          | exit => exact hstay _ nofun

/-- It is enough to look one move ahead. -/
theorem Ends.of_moves (hc : c ≠ .pipe ∧ c ≠ .fork)
    (h : ∀ P', Moves opens ⟨.running (.call c next), fds⟩ P' → P'.Ends opens Q) :
    Ends opens ⟨.running (.call c next), fds⟩ Q := by
  constructor
  · intro P' hreach
    rcases Relation.ReflTransGen.cases_head hreach with rfl | ⟨P₁, hmove, hrest⟩
    · intro c' next' heq
      cases heq
      exact hc
    · exact (h P₁ hmove).1 P' hrest
  · intro P' hreach hset
    rcases Relation.ReflTransGen.cases_head hreach with rfl | ⟨P₁, hmove, hrest⟩
    · exact absurd hset not_settled
    · exact (h P₁ hmove).2 P' hrest hset

theorem Ends.moves (h : P.Ends opens Q) (hmove : P.Moves opens P') : P'.Ends opens Q :=
  ⟨h.1.moves (.single hmove), fun P'' hreach => h.2 P'' (hreach.head hmove)⟩

theorem Ends.imp {Q' : Process W → Prop} (h : P.Ends opens Q) (hQ : ∀ P, Q P → Q' P) :
    P.Ends opens Q' := ⟨h.1, fun P' hreach hset => hQ P' (h.2 P' hreach hset)⟩

theorem Ends.of_settled (hset : P.Settled) (hQ : Q P) : P.Ends opens Q := by
  have hstay : ∀ P', Relation.ReflTransGen (Moves opens) P P' → P' = P := by
    intro P' hreach
    rcases Relation.ReflTransGen.cases_head hreach with rfl | ⟨P₁, hmove, -⟩
    · rfl
    · exact absurd hmove hset.not_moves
  constructor
  · intro P' hreach c' next' heq
    rw [hstay P' hreach] at heq
    exact absurd heq (hset c' next')
  · intro P' hreach _
    rwa [hstay P' hreach]

theorem Ends.fail (hQ : Q ⟨.running (.fail ()), fds⟩) :
    Ends opens ⟨.running (.fail ()), fds⟩ Q :=
  .of_settled (fun _ _ h => by cases h) hQ

theorem Ends.openFile {path : Option W}
    (h : ∀ r fds', (Syscall.openFile path).Answered opens fds r fds' →
      Ends opens ⟨.running (next r), fds'⟩ Q) :
    Ends opens ⟨.running (.call (.openFile path) next), fds⟩ Q := by
  refine .of_moves ⟨nofun, nofun⟩ fun P' hmove => ?_
  cases hmove with
  | call hanswer => exact h _ _ hanswer

/-- A descriptor that is open is closed. -/
theorem Ends.close (d : Nat) {x : Object W} (hopen : fds d = some x)
    (h : Ends opens ⟨.running (next { ret := 0 }), fds.set d none⟩ Q) :
    Ends opens ⟨.running (.call (.close d) next), fds⟩ Q := by
  refine .of_moves ⟨nofun, nofun⟩ fun P' hmove => ?_
  cases hmove with
  | call hanswer =>
      cases hanswer with
      | closed hd =>
          obtain rfl := Int.natCast_inj.mp hd.1
          exact h
      | notClosed hno => exact absurd ⟨rfl, hopen⟩ (hno d x)

theorem Ends.dup2_refused {fd fd' : Int} (hneg : fd < 0)
    (h : Ends opens ⟨.running (next { ret := -1 }), fds⟩ Q) :
    Ends opens ⟨.running (.call (.dup2 fd fd') next), fds⟩ Q := by
  refine .of_moves ⟨nofun, nofun⟩ fun P' hmove => ?_
  cases hmove with
  | call hanswer =>
      cases hanswer with
      | copied hd =>
          have := hd.1
          omega
      | notCopied => exact h

theorem Ends.dup2 (d d' : Nat) {x : Object W} (hopen : fds d = some x)
    (h : Ends opens ⟨.running (next { ret := d' }), fds.set d' (some x)⟩ Q) :
    Ends opens ⟨.running (.call (.dup2 d d') next), fds⟩ Q := by
  refine .of_moves ⟨nofun, nofun⟩ fun P' hmove => ?_
  generalize hd' : (d' : Int) = e at hmove
  cases hmove with
  | call hanswer =>
      cases hanswer with
      | copied hd =>
          obtain rfl := Int.natCast_inj.mp hd'
          obtain rfl := Int.natCast_inj.mp hd.1
          obtain rfl := Option.some.inj (hopen.symm.trans hd.2)
          exact h
      | notCopied hno =>
          rcases hno with hno | hneg
          · exact absurd ⟨rfl, hopen⟩ (hno d x)
          · omega

/-- A process that is to be a program is one, or goes on. -/
theorem Ends.exec {path : W} {argv : List W} (hQ : Q ⟨.program argv, fds⟩)
    (h : Ends opens ⟨.running (next { ret := -1 }), fds⟩ Q) :
    Ends opens ⟨.running (.call (.exec path argv) next), fds⟩ Q := by
  refine .of_moves ⟨nofun, nofun⟩ fun P' hmove => ?_
  cases hmove with
  | call hanswer => cases hanswer
  | exec => exact .of_settled (fun _ _ h => by cases h) hQ
  | execFails => exact h

theorem Ends.exit {status : Int} (hQ : Q ⟨.exited status, fun _ => none⟩) :
    Ends opens ⟨.running (.call (.exit status) next), fds⟩ Q := by
  refine .of_moves ⟨nofun, nofun⟩ fun P' hmove => ?_
  cases hmove with
  | call hanswer => cases hanswer
  | exit => exact .of_settled (fun _ _ h => by cases h) hQ

end

end Process

/-! ## Any number of processes -/

/-- The processes by their numbers, and how many pipes there have been. -/
structure Kernel (W : Type*) where
  process : Nat → Option (Process W)
  pipes : Nat

namespace Kernel

/-- What happens: a process moves, makes a pipe or forks, or one of these two
fails. -/
inductive Event where
  | move (i : Nat)
  | pipe (i : Nat)
  | fork (i j : Nat)
  | exhausted (i : Nat)

def set (k : Kernel W) (i : Nat) (P : Process W) : Kernel W :=
  { k with process := Function.update k.process i (some P) }

inductive Step (opens : W → Prop) (k : Kernel W) : Event → Kernel W → Prop
  | move {i : Nat} {P P' : Process W} : k.process i = some P → P.Moves opens P' →
      Step opens k (.move i) (k.set i P')
  | pipe {i r w : Nat} {next : Answer → Client (Syscall W) Answer Unit Unit}
      {fds : Descriptors W} : k.process i = some ⟨.running (.call .pipe next), fds⟩ →
      fds.Lowest r → (fds.set r (some (.readEnd k.pipes))).Lowest w →
      Step opens k (.pipe i)
        { k.set i ⟨.running (next { ret := 0, readFd := r, writeFd := w }),
            (fds.set r (some (.readEnd k.pipes))).set w (some (.writeEnd k.pipes))⟩ with
          pipes := k.pipes + 1 }
  | fork {i j : Nat} {next : Answer → Client (Syscall W) Answer Unit Unit}
      {fds : Descriptors W} : k.process i = some ⟨.running (.call .fork next), fds⟩ →
      k.process j = none → 0 < j →
      Step opens k (.fork i j)
        ((k.set i ⟨.running (next { ret := j }), fds⟩).set j ⟨.running (next { ret := 0 }), fds⟩)
  | exhausted {i : Nat} {c : Syscall W} {next : Answer → Client (Syscall W) Answer Unit Unit}
      {fds : Descriptors W} : k.process i = some ⟨.running (.call c next), fds⟩ →
      c = .pipe ∨ c = .fork →
      Step opens k (.exhausted i) (k.set i ⟨.running (next { ret := -1 }), fds⟩)

/-- One process, with the number 0, after `n` pipes. -/
def single (P : Process W) (n : Nat) : Kernel W := ⟨fun i => if i = 0 then some P else none, n⟩

/-- No process. -/
def empty : Kernel W := ⟨fun _ => none, 0⟩

/-- What becomes of the processes there are. -/
def system (opens : W → Prop) (start : Kernel W) : System (Kernel W) Event where
  init k := k = start
  step := Step opens

/-- No `pipe` and no `fork` fails. -/
def Calm (_ : Kernel W) (e : Event) : Prop := ∀ i, e ≠ .exhausted i

/-- Nothing more can happen, unless a `pipe` or a `fork` fails. -/
def Done (opens : W → Prop) (k : Kernel W) : Prop := ∀ e k', Calm k e → ¬ Step opens k e k'

def Solo (opens : W → Prop) (k : Kernel W) : Prop :=
  ∀ i P, k.process i = some P → P.Solo opens

/-- A process moves. -/
def Advances (opens : W → Prop) (k k' : Kernel W) : Prop :=
  ∃ i P P', k.process i = some P ∧ P.Moves opens P' ∧ k' = k.set i P'

/-- There is one process for each member of a list, and no other. -/
def Staffed {α : Type*} (R : α → Process W → Prop) (ls : List α) (k : Kernel W) : Prop :=
  ∃ is : List Nat, is.Nodup ∧ (∀ i, k.process i ≠ none → i ∈ is) ∧
    List.Forall₂ (fun i l => ∃ P, k.process i = some P ∧ R l P) is ls

variable {opens : W → Prop} {k k' : Kernel W} {e : Event}

theorem Solo.not_calls (hs : k.Solo opens) {i : Nat} {c : Syscall W}
    {next : Answer → Client (Syscall W) Answer Unit Unit} {fds : Descriptors W}
    (h : k.process i = some ⟨.running (.call c next), fds⟩) : c ≠ .pipe ∧ c ≠ .fork :=
  hs i _ h _ .refl c next rfl

/-- Among solo processes nothing happens but moves. -/
theorem Solo.advances (hs : k.Solo opens) (hstep : Step opens k e k') : Advances opens k k' := by
  cases hstep with
  | move hP hmove => exact ⟨_, _, _, hP, hmove, rfl⟩
  | pipe hP => exact absurd rfl (hs.not_calls hP).1
  | fork hP => exact absurd rfl (hs.not_calls hP).2
  | exhausted hP hc => exact absurd hc (not_or.mpr (hs.not_calls hP))

/-- What there is at a number moves. -/
def MovesAt (opens : W → Prop) (o o' : Option (Process W)) : Prop :=
  ∃ P P', o = some P ∧ o' = some P' ∧ P.Moves opens P'

theorem movesAt_acc (o : Option (Process W)) : Acc (fun o' o => MovesAt opens o o') o := by
  cases o with
  | none =>
      refine .intro _ ?_
      rintro o' ⟨P, P', hP, -⟩
      cases hP
  | some P =>
      induction Process.moves_acc (W := W) P with
      | intro P _ ih =>
          refine .intro _ ?_
          rintro o' ⟨P₁, P', hP, rfl, hmove⟩
          obtain rfl := Option.some.inj hP
          exact ih P' hmove

/-- A kernel with one process less. -/
def without (k : Kernel W) (i : Nat) : Kernel W :=
  { k with process := Function.update k.process i none }

/-- Finitely many processes cannot move for ever. -/
theorem advances_acc : ∀ (is : List Nat) (k : Kernel W),
    (∀ i, k.process i ≠ none → i ∈ is) → Acc (fun k' k => Advances opens k k') k := by
  intro is
  induction is with
  | nil =>
      intro k hall
      refine .intro k ?_
      rintro k' ⟨i, P, P', hP, -⟩
      exact absurd (hall i (by rw [hP]; exact Option.some_ne_none P)) List.not_mem_nil
  | cons i is ih =>
      intro k hall
      have hothers : Acc (fun k' k => Advances opens k k') (k.without i) := by
        refine ih _ fun j hj => ?_
        have hji : j ≠ i := by
          rintro rfl
          exact hj (Function.update_self ..)
        have hsame : (k.without i).process j = k.process j := Function.update_of_ne hji ..
        rw [hsame] at hj
        exact (List.mem_cons.mp (hall j hj)).resolve_left hji
      have hpair := (movesAt_acc (k.process i) : Acc (fun o' o => MovesAt opens o o') _).prod_gameAdd hothers
      refine Subrelation.accessible ?_
        (InvImage.accessible (fun k : Kernel W => (k.process i, k.without i)) hpair)
      -- A move is one of the process `i`, or one of the others.
      rintro k' k ⟨j, P, P', hP, hmove, rfl⟩
      refine Prod.gameAdd_iff.mpr ?_
      by_cases hj : j = i
      · subst hj
        refine Or.inl ⟨⟨P, P', hP, Function.update_self .., hmove⟩, ?_⟩
        exact congrArg (Kernel.mk · k.pipes) (Function.update_idem ..)
      · refine Or.inr ⟨⟨j, P, P', ?_, hmove, ?_⟩, Function.update_of_ne (Ne.symm hj) ..⟩
        · exact (Function.update_of_ne hj ..).trans hP
        · exact congrArg (Kernel.mk · k.pipes) (Function.update_comm (Ne.symm hj) .. |>.symm)

/-- Where nothing more can happen, a solo process is settled. -/
theorem Done.settled (h : Done opens k) (hs : k.Solo opens) {i : Nat} {P : Process W}
    (hP : k.process i = some P) : P.Settled := by
  by_contra hn
  obtain ⟨P', hmove⟩ := (hs i P hP).progress hn
  exact h (.move i) _ nofun (.move hP hmove)

/-! ## One process for each -/

section

variable {α : Type*} {R : α → Process W → Prop} {Q : α → Process W → Prop} {ls : List α}

/-- Every process is that of a member. -/
theorem Staffed.member (h : k.Staffed R ls) {i : Nat} {P : Process W} (hP : k.process i = some P) :
    ∃ l ∈ ls, R l P := by
  obtain ⟨is, -, hall, hrel⟩ := h
  have hi : i ∈ is := hall i (by rw [hP]; exact Option.some_ne_none P)
  clear hall
  induction hrel with
  | nil => cases hi
  | @cons j l is ls hjl _ ih =>
      rcases List.mem_cons.mp hi with rfl | hi
      · obtain ⟨P', hP', hR⟩ := hjl
        obtain rfl := Option.some.inj (hP.symm.trans hP')
        exact ⟨l, List.mem_cons_self, hR⟩
      · obtain ⟨l', hl', hR⟩ := ih hi
        exact ⟨l', List.mem_cons_of_mem _ hl', hR⟩

theorem Staffed.solo (h : k.Staffed (fun l P => P.Ends opens (Q l)) ls) : k.Solo opens := by
  intro i P hP
  obtain ⟨l, -, hends⟩ := h.member hP
  exact hends.1

/-- Whatever the others do, each process goes its own way. -/
theorem Staffed.step (h : k.Staffed (fun l P => P.Ends opens (Q l)) ls)
    (hstep : Step opens k e k') : k'.Staffed (fun l P => P.Ends opens (Q l)) ls := by
  obtain ⟨i, P, P', hP, hmove, rfl⟩ := h.solo.advances hstep
  obtain ⟨is, hnodup, hall, hrel⟩ := h
  have hset : ∀ j, j ≠ i → (k.set i P').process j = k.process j :=
    fun j hj => Function.update_of_ne hj ..
  refine ⟨is, hnodup, fun j hj => hall j ?_, hrel.imp fun j l hends => ?_⟩
  · by_cases hji : j = i
    · rw [hji, hP]
      exact Option.some_ne_none P
    · rwa [hset j hji] at hj
  · obtain ⟨P₁, hP₁, hends⟩ := hends
    by_cases hji : j = i
    · subst hji
      obtain rfl := Option.some.inj (hP.symm.trans hP₁)
      exact ⟨P', Function.update_self .., hends.moves hmove⟩
    · exact ⟨P₁, (hset j hji).trans hP₁, hends⟩

/-- Where nothing more can happen, each member has what it is to have. -/
theorem Staffed.done (h : k.Staffed (fun l P => P.Ends opens (Q l)) ls) (hdone : Done opens k) :
    k.Staffed Q ls := by
  have hsolo := h.solo
  obtain ⟨is, hnodup, hall, hrel⟩ := h
  refine ⟨is, hnodup, hall, hrel.imp fun i l hends => ?_⟩
  obtain ⟨P, hP, hends⟩ := hends
  exact ⟨P, hP, hends.2 P .refl (hdone.settled hsolo hP)⟩

/-- What has settled has what one of the members is to have. -/
theorem Staffed.settled (h : k.Staffed (fun l P => P.Ends opens (Q l)) ls) {i : Nat} {P : Process W}
    (hP : k.process i = some P) (hset : P.Settled) : ∃ l ∈ ls, Q l P := by
  obtain ⟨l, hl, hends⟩ := h.member hP
  exact ⟨l, hl, hends.2 P .refl hset⟩

theorem Staffed.acc (h : k.Staffed (fun l P => P.Ends opens (Q l)) ls) :
    Acc (fun k' k => ∃ e, Step opens k e k') k := by
  have hacc : Acc (fun k' k => Advances opens k k') k := by
    obtain ⟨is, -, hall, -⟩ := h
    exact advances_acc is k hall
  induction hacc with
  | intro k _ ih =>
      refine .intro k ?_
      rintro k' ⟨e, hstep⟩
      exact ih k' (h.solo.advances hstep) (h.step hstep)

/-! ## Up to the last fork -/

/-- As long as no `pipe` and no `fork` fails, the one process there is has calls of
these to make, and then there is one process for each member of a list. One of the
calls can come about if there is room, and `F` is what it leads to if it fails. -/
inductive Becomes (opens : W → Prop) (Q : α → Process W → Prop) (ls : List α) (room : Prop)
    (F : Kernel W → Prop) : Kernel W → Prop
  | staffed {k : Kernel W} : k.Staffed (fun l P => P.Ends opens (Q l)) ls →
      Becomes opens Q ls room F k
  | call {c : Syscall W} {next : Answer → Client (Syscall W) Answer Unit Unit}
      {fds : Descriptors W} {n : Nat} :
      (room → ∃ e k', Calm (single ⟨.running (.call c next), fds⟩ n) e ∧
        Step opens (single ⟨.running (.call c next), fds⟩ n) e k') →
      (∀ e k', Calm (single ⟨.running (.call c next), fds⟩ n) e →
        Step opens (single ⟨.running (.call c next), fds⟩ n) e k' →
        Becomes opens Q ls room F k') →
      F (single ⟨.running (next { ret := -1 }), fds⟩ n) →
      Becomes opens Q ls room F (single ⟨.running (.call c next), fds⟩ n)

variable {room : Prop} {F : Kernel W → Prop}

theorem single_process {P P' : Process W} {n i : Nat} (h : (single P n).process i = some P') :
    i = 0 ∧ P = P' := by
  dsimp only [single] at h
  split at h
  · next hi => exact ⟨hi, Option.some.inj h⟩
  · cases h

theorem set_single {P P' : Process W} {n : Nat} : (single P n).set 0 P' = single P' n := by
  refine congrArg (Kernel.mk · n) (funext fun i => ?_)
  dsimp only [single]
  by_cases hi : i = 0
  · rw [hi, Function.update_self, if_pos rfl]
  · rw [Function.update_of_ne hi, if_neg hi, if_neg hi]

theorem Becomes.step (h : Becomes opens Q ls room F k) (hcalm : Calm k e)
    (hstep : Step opens k e k') : Becomes opens Q ls room F k' := by
  cases h with
  | staffed h => exact .staffed (h.step hstep)
  | call _ hnext => exact hnext e k' hcalm hstep

theorem Becomes.exhausted (h : Becomes opens Q ls room F k) {i : Nat}
    (hstep : Step opens k (.exhausted i) k') : F k' := by
  cases hstep with
  | exhausted hP hc =>
      cases h with
      | staffed h => exact absurd hc (not_or.mpr (h.solo.not_calls hP))
      | call _ _ hfail =>
          obtain ⟨rfl, heq⟩ := single_process hP
          cases heq
          rw [set_single]
          exact hfail

/-- A run goes as it is to go, or a call has failed in it. -/
theorem Becomes.run {start : Kernel W} (h : Becomes opens Q ls room F start)
    (hF : ∀ k e k', F k → Step opens k e k' → F k') {tr : List Event}
    (hrun : (system opens start).Run tr k) :
    (∀ i, Event.exhausted i ∉ tr) ∧ Becomes opens Q ls room F k ∨
      (∃ i, Event.exhausted i ∈ tr) ∧ F k := by
  refine System.Run.induction (S := system opens start) (I := fun tr k =>
    (∀ i, Event.exhausted i ∉ tr) ∧ Becomes opens Q ls room F k ∨
      (∃ i, Event.exhausted i ∈ tr) ∧ F k) ?_ ?_ hrun
  · rintro k rfl
    exact Or.inl ⟨fun i => List.not_mem_nil, h⟩
  · rintro tr k e k' (⟨hno, hk⟩ | ⟨⟨i, hi⟩, hk⟩) hstep
    · by_cases hcalm : Calm k e
      · refine Or.inl ⟨fun i hi => ?_, hk.step hcalm hstep⟩
        rcases List.mem_cons.mp hi with heq | hi
        · exact hcalm i heq.symm
        · exact hno i hi
      · unfold Calm at hcalm
        push Not at hcalm
        obtain ⟨i, rfl⟩ := hcalm
        exact Or.inr ⟨⟨i, List.mem_cons_self⟩, hk.exhausted hstep⟩
    · exact Or.inr ⟨⟨i, List.mem_cons_of_mem e hi⟩, hF k e k' hk hstep⟩

/-- Where nothing more can happen, each member has what it is to have. -/
theorem Becomes.done (h : Becomes opens Q ls room F k) (hroom : room) (hdone : Done opens k) :
    k.Staffed Q ls := by
  cases h with
  | staffed h => exact h.done hdone
  | call hcan =>
      obtain ⟨e, k', hcalm, hstep⟩ := hcan hroom
      exact absurd hstep (hdone e k' hcalm)

/-- A process that has settled has what one of the members is to have. -/
theorem Becomes.settled (h : Becomes opens Q ls room F k) {i : Nat} {P : Process W}
    (hP : k.process i = some P) (hset : P.Settled) : ∃ l ∈ ls, Q l P := by
  cases h with
  | staffed h => exact h.settled hP hset
  | call =>
      obtain ⟨-, rfl⟩ := single_process hP
      exact absurd hset Process.not_settled

theorem Becomes.acc (h : Becomes opens Q ls room F k) :
    Acc (fun k' k => ∃ e, Calm k e ∧ Step opens k e k') k := by
  induction h with
  | staffed h => exact Subrelation.accessible (fun ⟨e, _, hstep⟩ => ⟨e, hstep⟩) h.acc
  | call _ _ _ ih =>
      refine .intro _ ?_
      rintro k' ⟨e, hcalm, hstep⟩
      exact ih e k' hcalm hstep

section

variable {a b : α} {next : Answer → Client (Syscall W) Answer Unit Unit} {fds : Descriptors W}
  {n : Nat}

theorem staffed_empty : (empty : Kernel W).Staffed R [] :=
  ⟨[], List.nodup_nil, fun _ hi => absurd rfl hi, .nil⟩

/-- A process that neither forks nor makes a pipe. -/
theorem staffed_single {P : Process W} (h : P.Ends opens (Q a)) :
    (single P n).Staffed (fun l P => P.Ends opens (Q l)) [a] := by
  refine ⟨[0], List.nodup_singleton 0, fun i hi => ?_, .cons ⟨P, rfl, h⟩ .nil⟩
  obtain ⟨P', hP'⟩ := Option.ne_none_iff_exists'.mp hi
  exact List.mem_singleton.mpr (single_process hP').1

/-- A pipe takes two descriptors. -/
theorem Becomes.pipe (hroom : room → ∃ d d', fds d = none ∧ fds d' = none ∧ d ≠ d')
    (h : ∀ r w : Nat, fds r = none → fds w = none → r ≠ w →
      Becomes opens Q ls room F (single ⟨.running (next { ret := 0, readFd := r, writeFd := w }),
        (fds.set r (some (.readEnd n))).set w (some (.writeEnd n))⟩ (n + 1)))
    (hfail : F (single ⟨.running (next { ret := -1 }), fds⟩ n)) :
    Becomes opens Q ls room F (single ⟨.running (.call .pipe next), fds⟩ n) := by
  refine .call (fun hr => ?_) (fun e k' hcalm hstep => ?_) hfail
  · obtain ⟨d, d', hd, hd', hne⟩ := hroom hr
    obtain ⟨r, hr⟩ := fds.exists_lowest hd
    -- The one of the two that is not taken is still free.
    obtain ⟨f, hf, hfr⟩ : ∃ f, fds f = none ∧ f ≠ r := by
      by_cases hdr : d = r
      · exact ⟨d', hd', fun h => hne (hdr.trans h.symm)⟩
      · exact ⟨d, hd, hdr⟩
    obtain ⟨w, hw⟩ := Descriptors.exists_lowest _ ((Descriptors.set_ne fds hfr).trans hf)
    exact ⟨.pipe 0, _, nofun, .pipe rfl hr hw⟩
  cases hstep with
  | move hP hmove =>
      obtain ⟨-, rfl⟩ := single_process hP
      cases hmove with
      | call hanswer => cases hanswer
  | @pipe i r w next' fds' hP hr hw =>
      obtain ⟨rfl, heq⟩ := single_process hP
      cases heq
      have hne : r ≠ w := by
        rintro rfl
        have := hw.1
        rw [Descriptors.set_self] at this
        cases this
      have hw' : fds w = none := (Descriptors.set_ne _ hne.symm).symm.trans hw.1
      rw [set_single]
      exact h r w hr.1 hw' hne
  | fork hP =>
      obtain ⟨-, heq⟩ := single_process hP
      cases heq
  | exhausted => exact absurd rfl (hcalm _)

/-- A fork makes two processes of the one. -/
theorem Becomes.fork
    (hparent : ∀ j : Nat, 0 < j → Process.Ends opens ⟨.running (next { ret := j }), fds⟩ (Q a))
    (hchild : Process.Ends opens ⟨.running (next { ret := 0 }), fds⟩ (Q b))
    (hfail : F (single ⟨.running (next { ret := -1 }), fds⟩ n)) :
    Becomes opens Q [a, b] room F (single ⟨.running (.call .fork next), fds⟩ n) := by
  refine .call (fun _ => ⟨.fork 0 1, _, nofun, .fork rfl rfl Nat.one_pos⟩)
    (fun e k' hcalm hstep => ?_) hfail
  cases hstep with
  | move hP hmove =>
      obtain ⟨-, rfl⟩ := single_process hP
      cases hmove with
      | call hanswer => cases hanswer
  | pipe hP =>
      obtain ⟨-, heq⟩ := single_process hP
      cases heq
  | @fork i j next' fds' hP hj hpos =>
      obtain ⟨rfl, heq⟩ := single_process hP
      cases heq
      rw [set_single]
      refine .staffed ⟨[0, j], ?_, fun i hi => ?_, .cons ⟨_, ?_, hparent j hpos⟩
        (.cons ⟨_, Function.update_self .., hchild⟩ .nil)⟩
      · simp only [List.nodup_cons, List.mem_singleton, List.not_mem_nil, not_false_eq_true,
          List.nodup_nil, and_true]
        omega
      · rw [List.mem_pair]
        by_contra hno
        obtain ⟨hi0, hij⟩ := not_or.mp hno
        exact hi ((Function.update_of_ne hij ..).trans (if_neg hi0))
      · exact Function.update_of_ne (by omega) ..
  | exhausted => exact absurd rfl (hcalm _)

end

end

end Kernel

end OsConcepts
