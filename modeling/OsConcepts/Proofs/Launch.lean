import Mathlib.Order.WellFounded
import OsConcepts.Proofs.Words
import OsConcepts.Shelly.Child

/-!
# What a command line launches

The words of a line say what is to run and with what input and output: that is
the `plan`, and nothing for a built-in (`commandPlan`). The child of the shell comes
to it in steps. Its words are put into
`args` and cut off there by NULLs (`argv_clear` and the like), a `>` or a `|`
moves descriptors until the rest of them are as they were (`redirect_ends`,
`pipeWriter_ends`, `pipeReader_ends`), and the two processes of a pipe do so in
any order. If `pipe` or `fork` fails, there is a NULL where the `|` was and the loop
goes on, so the words in front of it are run (`unpiped_ends`).

The shell's input and output have to be open before, or a pipe or a file takes
their place and is closed with the spare descriptor.
-/

namespace OsConcepts.Shelly

open OsConcepts Process

variable {args : Args} {ws xs : List Word} {i n : Nat} {opens : Word → Prop}
  {base fds : Descriptors Word}

/-! ## The words in `args` -/

theorem argvFrom_eq : ∀ {xs : List Word} {n i : Nat}, 5 ≤ n + i →
    (∀ j, j ≤ xs.length → args.get (i + j) = xs[j]?) → args.argvFrom n i = xs := by
  intro xs
  induction xs with
  | nil =>
      intro n i hn h
      have hget : args.get i = none := h 0 (Nat.le_refl 0)
      cases n with
      | zero => rfl
      | succ n => rw [Args.argvFrom, hget]
  | cons x xs ih =>
      intro n i hn h
      have hget : args.get i = some x := h 0 (Nat.zero_le _)
      cases n with
      | zero =>
          rw [Args.get, dif_neg (by omega)] at hget
          cases hget
      | succ n =>
          rw [Args.argvFrom, hget]
          dsimp only
          rw [ih (by omega) fun j hj => ?_]
          have := h (j + 1) (by rw [List.length_cons]; omega)
          rwa [List.getElem?_cons_succ, ← Nat.add_assoc, Nat.add_right_comm] at this

theorem argv_eq (h : ∀ j, j ≤ xs.length → args.get (i + j) = xs[j]?) : args.argv i = xs :=
  argvFrom_eq (by omega) h

theorem argsOf_get (hws : ws.length ≤ 4) (j : Nat) : Args.get (argsOf ws) j = ws[j]? := by
  unfold Args.get argsOf
  split
  · rfl
  · rw [List.getElem?_eq_none (by omega)]

theorem clear_get (args : Args) (i j : Nat) :
    (args.clear i).get j = if j = i then none else args.get j := by
  unfold Args.get Args.clear
  split
  · rfl
  · rw [ite_self]

/-- The words of a command are its whole vector. -/
theorem argv_argsOf (hws : ws.length ≤ 4) : Args.argv (argsOf ws) 0 = ws :=
  argv_eq fun j _ => by rw [Nat.zero_add, argsOf_get hws]

/-- With a NULL put behind the first `i`, they are what is left. -/
theorem argv_clear (hws : ws.length ≤ 4) {left rest : List Word} {op : Word}
    (h : ws = left ++ op :: rest) : Args.argv ((argsOf ws).clear left.length) 0 = left := by
  refine argv_eq fun j hj => ?_
  rw [Nat.zero_add, clear_get, argsOf_get hws, h]
  split
  · next hj' => rw [hj', List.getElem?_eq_none (Nat.le_refl _)]
  · rw [List.getElem?_append_left (by omega)]

theorem argv_clear_rest (hws : ws.length ≤ 4) {left rest : List Word} {op : Word}
    (h : ws = left ++ op :: rest) :
    Args.argv ((argsOf ws).clear left.length) (left.length + 1) = rest := by
  refine argv_eq fun j hj => ?_
  rw [clear_get, if_neg (by omega), argsOf_get hws, h, List.getElem?_append_right (by omega),
    show left.length + 1 + j - left.length = j + 1 by omega, List.getElem?_cons_succ]

theorem argv_clear_clear (hws : ws.length ≤ 4) {left rest : List Word} {op : Word}
    (h : ws = left ++ op :: rest) :
    Args.argv (((argsOf ws).clear left.length).clear (left.length + 1)) 0 = left := by
  refine argv_eq fun j hj => ?_
  rw [Nat.zero_add, clear_get, if_neg (by omega), clear_get, argsOf_get hws, h]
  split
  · next hj' => rw [hj', List.getElem?_eq_none (Nat.le_refl _)]
  · rw [List.getElem?_append_left (by omega)]

/-! ## The plan -/

/-- A program to be run, with what its input and its output are instead of the
given ones. -/
structure Launch where
  argv : List Word
  stdin : Option (Object Word) := none
  stdout : Option (Object Word) := none

def Launch.descriptors (l : Launch) (base : Descriptors Word) : Descriptors Word :=
  let fds := if l.stdin.isSome then base.set 0 l.stdin else base
  if l.stdout.isSome then fds.set 1 l.stdout else fds

def isOperator (w : Word) : Bool := w == redirectWord || w == pipeWord

/-- A `>` with the words in front of it and behind it. Without a file that can be
opened, all of them are arguments. -/
def redirectLaunch (opens : Word → Prop) [DecidablePred opens] (left rest : List Word) : Launch :=
  match rest with
  | [] => { argv := left ++ redirectWord :: rest }
  | name :: _ =>
      if opens name then { argv := left, stdout := some (.file name) }
      else { argv := left ++ redirectWord :: rest }

/-- What the words of a command mean that is not one of the shell: the first operator
in them counts, and what is behind it are words. -/
def plan (opens : Word → Prop) [DecidablePred opens] (ws : List Word) : List Launch :=
  let left := ws.takeWhile (!isOperator ·)
  match ws.dropWhile (!isOperator ·) with
  | [] => [{ argv := ws }]
  | op :: rest =>
      if op = pipeWord then
        [{ argv := rest, stdin := some (.readEnd 0) }, { argv := left, stdout := some (.writeEnd 0) }]
      else [redirectLaunch opens left rest]

/-- What a command line means. A built-in launches nothing, operators or not. -/
def commandPlan (opens : Word → Prop) [DecidablePred opens] (ws : List Word) : List Launch :=
  if ws.head?.any (!isBuiltIn ·) then plan opens ws else []

/-- `pwd | wc` -/
example : commandPlan (fun _ => False) [[112, 119, 100], pipeWord, [119, 99]] = [] := rfl

/-- What a process that is to run a program ends up as: the program, gone because
there is no such program, or broken off because it has no name. -/
inductive Launched (base : Descriptors Word) (l : Launch) : Process Word → Prop
  | program : l.argv ≠ [] → Launched base l ⟨.program l.argv, l.descriptors base⟩
  | notFound : l.argv ≠ [] → Launched base l ⟨.exited 1, fun _ => none⟩
  | noName : l.argv = [] → Launched base l ⟨.running (.fail ()), l.descriptors base⟩

/-! ## The child -/

theorem argv_ne_nil {word : Word} (h : args.get i = some word) : args.argv i ≠ [] := by
  have hi : i < 5 := by
    by_contra hno
    rw [Args.get, dif_neg hno] at h
    cases h
  obtain ⟨n, hn⟩ : ∃ n, 5 - i = n + 1 := ⟨4 - i, by omega⟩
  rw [Args.argv, hn, Args.argvFrom, h]
  exact List.cons_ne_nil _ _

theorem argv_nil (h : args.get i = none) : args.argv i = [] :=
  argv_eq fun j hj => by
    obtain rfl := Nat.le_zero.mp hj
    exact h

/-- `exec_shelly` runs the words it is given, whatever comes behind it. -/
theorem execShelly_ends {l : Launch} (hargv : args.argv i = l.argv) (hfds : fds = l.descriptors base)
    (k : Unit → ShellyM Unit) :
    Ends opens ⟨.running ((execShelly args i).bind k), fds⟩ (Launched base l) := by
  subst hfds
  unfold execShelly
  cases hget : args.get i with
  | none =>
      rw [argv_nil hget] at hargv
      exact .fail (.noName hargv.symm)
  | some cmd =>
      have hne : l.argv ≠ [] := hargv ▸ argv_ne_nil hget
      refine Ends.exec ?_ ?_
      · rw [hargv]
        exact .program hne
      · exact Ends.exit (.notFound hne)

section

variable {left rest : List Word} {op : Word}

/-- A word that is no operator is passed over. -/
theorem childLoop_word {w : Word} (hget : args.get i = some w) (hop : isOperator w = false) :
    childLoop (n + 1) i args = childLoop n (i + 1) args := by
  simp only [isOperator, Bool.or_eq_false_iff, beq_eq_false_iff_ne] at hop
  rw [childLoop, hget]
  dsimp only
  rw [if_neg hop.1, Client.pure_bind_eq, hget]
  dsimp only
  rw [if_neg hop.2, Client.pure_bind_eq]

/-- So are the words up to the first operator. -/
theorem childLoop_skip (hws : ws.length ≤ 4) (h : ws = left ++ rest)
    (hplain : ∀ w ∈ left, isOperator w = false) : ∀ k, k ≤ left.length →
    childLoop ws.length 0 (argsOf ws) = childLoop (ws.length - k) k (argsOf ws) := by
  intro k
  induction k with
  | zero => intro _; rfl
  | succ k ih =>
      intro hk
      have hlen : ws.length = left.length + rest.length := by rw [h, List.length_append]
      obtain ⟨n, hn⟩ : ∃ n, ws.length - k = n + 1 := ⟨ws.length - k - 1, by omega⟩
      have hget : Args.get (argsOf ws) k = some left[k] := by
        rw [argsOf_get hws, h, List.getElem?_append_left hk, List.getElem?_eq_getElem hk]
      rw [ih (by omega), hn, childLoop_word hget (hplain _ (List.getElem_mem hk)),
        show ws.length - (k + 1) = n by omega]

theorem get_operator (hws : ws.length ≤ 4) (h : ws = left ++ op :: rest) :
    Args.get (argsOf ws) left.length = some op := by
  rw [argsOf_get hws, h, List.getElem?_append_right (Nat.le_refl _), Nat.sub_self]
  rfl

theorem get_behind (hws : ws.length ≤ 4) (h : ws = left ++ op :: rest) :
    Args.get (argsOf ws) (left.length + 1) = rest.head? := by
  rw [argsOf_get hws, h, List.getElem?_append_right (by omega), Nat.add_sub_cancel_left]
  cases rest <;> rfl

/-- A `>` gives the program the file for its output and nothing else. -/
theorem redirect_ends [DecidablePred opens] (hws : ws.length ≤ 4)
    (h : ws = left ++ redirectWord :: rest) (hout : base 1 ≠ none) (hfree : ∃ d, base d = none) :
    Ends opens ⟨.running (childLoop (rest.length + 1) left.length (argsOf ws)), base⟩
      (Launched base (redirectLaunch opens left rest)) := by
  have hbehind := get_behind hws h
  rw [childLoop, get_operator hws h]
  dsimp only
  rw [if_pos rfl]
  refine Ends.openFile fun r fds' hanswer => ?_
  rw [hbehind] at hanswer
  -- Without a file the words are all arguments.
  have hwhole : (∀ name, rest.head? = some name → ¬ opens name) →
      redirectLaunch opens left rest = { argv := ws } := by
    intro hno
    rw [h, redirectLaunch.eq_def]
    cases rest with
    | nil => rfl
    | cons name tail => exact if_neg (hno name rfl)
  generalize hpath : rest.head? = path at hanswer hwhole
  cases hanswer with
  | @opened _ name d hopens hlow =>
      have hlaunch : redirectLaunch opens left rest = { argv := left, stdout := some (.file name) } := by
        cases rest with
        | nil => cases hpath
        | cons name' tail =>
            obtain rfl := Option.some.inj hpath
            exact if_pos hopens
      have hd : d ≠ 1 := by
        rintro rfl
        exact hout hlow.1
      rw [hlaunch]
      refine Ends.dup2 d 1 (base.set_self) ?_
      change Ends opens ⟨.running ((redirectOutput _ _ d 1).bind _), _⟩ _
      rw [redirectOutput, if_pos ⟨by decide, by omega⟩]
      refine Ends.close d (x := .file name) ?_ ?_
      · rw [Descriptors.set_ne _ hd, Descriptors.set_self]
      change Ends opens ⟨.running (((execShelly _ 0).bind fun _ => Client.done _).bind _), _⟩ _
      rw [Client.bind_assoc]
      refine execShelly_ends (l := { argv := left, stdout := some (.file name) })
        (argv_clear_clear hws h) ?_ _
      exact Descriptors.set_none_of_set _ hlow.1 hd
  | notOpened hno =>
      rw [hwhole hno]
      refine Ends.dup2_refused (by decide) ?_
      change Ends opens ⟨.running ((redirectOutput _ _ (-1) (-1)).bind _), base⟩ _
      rw [redirectOutput, if_neg (by decide)]
      change Ends opens ⟨.running (((execShelly (argsOf ws) 0).bind fun _ => Client.done _).bind _), _⟩ _
      rw [Client.bind_assoc]
      exact execShelly_ends (l := { argv := ws }) (argv_argsOf hws) rfl _
  | full hfull =>
      obtain ⟨d, hd⟩ := hfree
      exact absurd hd (hfull d)

/-! ## The two ends of a pipe -/

/-- Both processes of a pipe close the end they do not use, and put the other in
the place of their output or input. -/
theorem pipe_end_ends {far near target : Nat} {x y : Object Word} {p : ShellyM Unit}
    {Q : Process Word → Prop} (hfar : fds far = some x) (hnear : fds near = some y)
    (hne : near ≠ far) (htarget : near ≠ target)
    (h : Ends opens ⟨.running p, ((fds.set far none).set target (some y)).set near none⟩ Q) :
    Ends opens ⟨.running (.call (.close far) fun _ => .call (.dup2 near target) fun _ =>
      .call (.close near) fun _ => p), fds⟩ Q := by
  have hnear' : fds.set far none near = some y := (Descriptors.set_ne _ hne).trans hnear
  refine Ends.close far hfar (Ends.dup2 near target hnear' (Ends.close near (x := y) ?_ h))
  exact (Descriptors.set_ne _ htarget).trans hnear'

/-- The descriptors of the two, once there is a pipe. -/
def piped (base : Descriptors Word) (r w : Nat) : Descriptors Word :=
  (base.set r (some (.readEnd 0))).set w (some (.writeEnd 0))

section

variable {r w : Nat}

theorem pipeWriter_ends (hws : ws.length ≤ 4) (h : ws = left ++ op :: rest) (h1 : base 1 ≠ none)
    (hr : base r = none) (hw : base w = none) (hrw : r ≠ w) (k : Unit → ShellyM Unit) :
    Ends opens ⟨.running ((pipeWriter ((argsOf ws).clear left.length) r w).bind k),
        piped base r w⟩
      (Launched base { argv := left, stdout := some (.writeEnd 0) }) := by
  have hw1 : w ≠ 1 := by
    rintro rfl
    exact h1 hw
  refine pipe_end_ends (x := .readEnd 0) (y := .writeEnd 0) ?_ (Descriptors.set_self _) hrw.symm
    hw1 (execShelly_ends (l := { argv := left, stdout := some (.writeEnd 0) }) (argv_clear hws h)
      ?_ k)
  · exact (Descriptors.set_ne _ hrw).trans (Descriptors.set_self _)
  · rw [Descriptors.set_none_of_set _ hr hrw, Descriptors.set_none_of_set _ hw hw1]
    rfl

theorem pipeReader_ends (hws : ws.length ≤ 4) (h : ws = left ++ op :: rest) (h0 : base 0 ≠ none)
    (hr : base r = none) (hw : base w = none) (hrw : r ≠ w) (k : Unit → ShellyM Unit) :
    Ends opens ⟨.running ((pipeReader ((argsOf ws).clear left.length) left.length r w).bind k),
        piped base r w⟩
      (Launched base { argv := rest, stdin := some (.readEnd 0) }) := by
  have hr0 : r ≠ 0 := by
    rintro rfl
    exact h0 hr
  refine pipe_end_ends (x := .writeEnd 0) (y := .readEnd 0) (Descriptors.set_self _) ?_ hrw hr0
    (execShelly_ends (l := { argv := rest, stdin := some (.readEnd 0) }) (argv_clear_rest hws h)
      ?_ k)
  · exact (Descriptors.set_ne _ hrw).trans (Descriptors.set_self _)
  · have hw' : base.set r (some (.readEnd 0)) w = none := (Descriptors.set_ne _ hrw.symm).trans hw
    rw [Descriptors.set_set, Descriptors.set_eq_self _ hw',
      Descriptors.set_none_of_set _ hr hr0]
    rfl

end

/-! ## The whole child -/

/-- Two descriptors that are free. -/
def TwoFree (base : Descriptors Word) : Prop := ∃ d d', base d = none ∧ base d' = none ∧ d ≠ d'

/-- A `|` makes two processes, the parent the one that reads. If it cannot, the loop
goes on behind the `|`, with a NULL in its place. -/
theorem pipe_becomes (hws : ws.length ≤ 4) (h : ws = left ++ pipeWord :: rest)
    (h0 : base 0 ≠ none) (h1 : base 1 ≠ none) {F : Kernel Word → Prop}
    (hfail : ∀ fds n, fds 0 = base 0 → fds 1 = base 1 → F (Kernel.single
      ⟨.running (childLoop rest.length (left.length + 1) ((argsOf ws).clear left.length)), fds⟩
      n)) :
    Kernel.Becomes opens (Launched base)
      [{ argv := rest, stdin := some (.readEnd 0) }, { argv := left, stdout := some (.writeEnd 0) }]
      (TwoFree base) F
      (Kernel.single
        ⟨.running (childLoop (rest.length + 1) left.length (argsOf ws)), base⟩ 0) := by
  rw [childLoop, get_operator hws h]
  dsimp only
  rw [if_neg (by decide), Client.pure_bind_eq, get_operator hws h]
  dsimp only
  rw [if_pos rfl]
  refine .pipe id (fun r w hr hw hrw => .fork (fun j hj => ?_) ?_ ?_) (hfail base 0 rfl rfl)
  · change Ends opens ⟨.running
      ((if (j : Int) = 0 then _ else if (j : Int) = -1 then _ else _ : ShellyM Args).bind _), _⟩ _
    rw [if_neg (by omega), if_neg (by omega)]
    change Ends opens ⟨.running (((pipeReader _ _ _ _).bind fun _ => Client.done _).bind _), _⟩ _
    rw [Client.bind_assoc]
    exact pipeReader_ends hws h h0 hr hw hrw _
  · change Ends opens ⟨.running (((pipeWriter _ _ _).bind fun _ => Client.done _).bind _), _⟩ _
    rw [Client.bind_assoc]
    exact pipeWriter_ends hws h h1 hr hw hrw _
  · -- The ends of the pipe stay open, but not in the place of the input or output.
    have hkept : ∀ d, base d ≠ none → piped base r w d = base d := by
      intro d hd
      have hdr : d ≠ r := fun heq => hd (heq ▸ hr)
      have hdw : d ≠ w := fun heq => hd (heq ▸ hw)
      exact (Descriptors.set_ne _ hdw).trans (Descriptors.set_ne _ hdr)
    exact hfail (piped base r w) 1 (hkept 0 h0) (hkept 1 h1)

/-- What the child of a command becomes is the plan of its words. -/
theorem child_becomes [DecidablePred opens] (hws : ws.length ≤ 4) (h0 : base 0 ≠ none)
    (h1 : base 1 ≠ none) (hfree : TwoFree base) :
    Kernel.Becomes opens (Launched base) (plan opens ws) (TwoFree base) (fun _ => True)
      (Kernel.single ⟨.running (childLoop ws.length 0 (argsOf ws)), base⟩ 0) := by
  have hsplit := List.takeWhile_append_dropWhile (p := (!isOperator ·)) (l := ws)
  have hplain : ∀ w ∈ ws.takeWhile (!isOperator ·), isOperator w = false := fun w hw => by
    simpa using List.mem_takeWhile_imp hw
  have hhead := List.head?_dropWhile_not (!isOperator ·) ws
  unfold plan
  generalize ws.takeWhile (!isOperator ·) = left at hsplit hplain
  cases hdrop : ws.dropWhile (!isOperator ·) with
  | nil =>
      rw [hdrop, List.append_nil] at hsplit
      subst hsplit
      rw [childLoop_skip hws (List.append_nil _).symm hplain left.length (Nat.le_refl _),
        Nat.sub_self, childLoop, ← Client.bind_done (execShelly _ _)]
      exact .staffed (Kernel.staffed_single
        (execShelly_ends (l := { argv := left }) (argv_argsOf hws) rfl _))
  | cons op rest =>
      rw [hdrop] at hsplit hhead
      have hlen : ws.length - left.length = rest.length + 1 := by
        rw [← hsplit, List.length_append, List.length_cons]
        omega
      rw [childLoop_skip hws hsplit.symm hplain left.length (by omega), hlen]
      dsimp only
      split
      · next hop => exact pipe_becomes hws (hop ▸ hsplit.symm) h0 h1 fun _ _ _ _ => trivial
      · next hop =>
          have hop' : op = redirectWord := by
            simp only [List.head?_cons, isOperator, Bool.not_eq_eq_eq_not, Bool.not_false,
              Bool.or_eq_true, beq_iff_eq] at hhead
            exact hhead.resolve_right hop
          obtain ⟨d, -, hd, -⟩ := hfree
          exact .staffed (Kernel.staffed_single
            (redirect_ends hws (hop' ▸ hsplit.symm) h1 ⟨d, hd⟩))

/-- Without an operator to come, what is at the start of `args` is run. -/
theorem childLoop_plain : ∀ n i, (∀ j, j < n → ∃ w, args.get (i + j) = some w ∧
    isOperator w = false) → childLoop n i args = execShelly args 0 := by
  intro n
  induction n with
  | zero => intro _ _; rfl
  | succ n ih =>
      intro i h
      obtain ⟨w, hget, hop⟩ := h 0 (Nat.succ_pos n)
      rw [Nat.add_zero] at hget
      rw [childLoop_word hget hop]
      refine ih (i + 1) fun j hj => ?_
      rw [Nat.add_right_comm, Nat.add_assoc]
      exact h (j + 1) (Nat.succ_lt_succ hj)

/-- What runs in place of a pipe that cannot be made: the words in front of the `|`
alone, with the input and the output of the shell. -/
inductive Unpiped (base : Descriptors Word) (left : List Word) : Process Word → Prop
  | program {fds : Descriptors Word} : left ≠ [] → fds 0 = base 0 → fds 1 = base 1 →
      Unpiped base left ⟨.program left, fds⟩
  | notFound : left ≠ [] → Unpiped base left ⟨.exited 1, fun _ => none⟩
  | noName {fds : Descriptors Word} : left = [] →
      Unpiped base left ⟨.running (.fail ()), fds⟩

theorem unpiped_ends (hws : ws.length ≤ 4) (h : ws = left ++ pipeWord :: rest)
    (hplain : ∀ w ∈ rest, isOperator w = false) (h0 : fds 0 = base 0) (h1 : fds 1 = base 1) :
    Ends opens ⟨.running (childLoop rest.length (left.length + 1)
      ((argsOf ws).clear left.length)), fds⟩ (Unpiped base left) := by
  rw [childLoop_plain rest.length (left.length + 1) fun j hj => ?_,
    ← Client.bind_done (execShelly _ _)]
  · refine (execShelly_ends (l := { argv := left }) (argv_clear hws h) rfl _).imp
      fun P hlaunched => ?_
    cases hlaunched with
    | program hne => exact .program hne h0 h1
    | notFound hne => exact .notFound hne
    | noName hnil => exact .noName hnil
  · refine ⟨rest[j], ?_, hplain _ (List.getElem_mem hj)⟩
    rw [clear_get, if_neg (by omega), argsOf_get hws, h, List.getElem?_append_right (by omega),
      show left.length + 1 + j - left.length = j + 1 by omega, List.getElem?_cons_succ,
      List.getElem?_eq_getElem hj]

end

/-! ## The whole command -/

section

variable [DecidablePred opens] {line : CString} {bg : Int} {cmd : Command}

/-- The words of a line that reach the child. -/
def commandWords (line : CString) : List Word := (kept (words line.bytes)).take 4

theorem commandWords_length : (commandWords line).length ≤ 4 := List.length_take_le ..

theorem getcmd_words (hcmd : getcmd (some line) args bg = some cmd) (hcnt : 0 < cmd.cnt) :
    cmd.cnt = (commandWords line).length ∧ cmd.args = argsOf (commandWords line) := by
  have hzero : wrap32 line.length ≠ 0 := by
    intro hzero
    unfold getcmd at hcmd
    dsimp only at hcmd
    rw [if_pos hzero] at hcmd
    obtain rfl := Option.some.inj hcmd
    exact absurd hcnt (lt_irrefl _)
  have hexit : wrap32 line.length ≠ -1 := by
    intro hexit
    unfold getcmd at hcmd
    dsimp only at hcmd
    rw [if_neg hzero, if_pos hexit] at hcmd
    cases hcmd
  rw [getcmd_eq line args bg hzero hexit] at hcmd
  obtain rfl := Option.some.inj hcmd
  exact ⟨rfl, rfl⟩

variable (base) in
/-- `main` forks unless the first word is a built-in. -/
theorem getcmd_start (hcmd : getcmd (some line) args bg = some cmd) (hcnt : 0 < cmd.cnt) :
    ∃ word rest, commandWords line = word :: rest ∧ cmd.start base = if isBuiltIn word then .empty
      else .single ⟨.running (childLoop (commandWords line).length 0
        (argsOf (commandWords line))), base⟩ 0 := by
  obtain ⟨hlen, hargs⟩ := getcmd_words hcmd hcnt
  have hne : commandWords line ≠ [] := by
    intro hnil
    rw [hlen, hnil] at hcnt
    exact absurd hcnt (lt_irrefl _)
  obtain ⟨word, rest, hwords⟩ := List.exists_cons_of_ne_nil hne
  have hget : cmd.args.get 0 = some word := by
    rw [hargs, argsOf_get commandWords_length, hwords]
    rfl
  have hchild : cmd.child =
      childLoop (commandWords line).length 0 (argsOf (commandWords line)) := by
    rw [Command.child, hlen, hargs, Int.toNat_natCast]
  refine ⟨word, rest, hwords, ?_⟩
  unfold Command.start Command.forked
  rw [if_pos hcnt, hget, ← hchild]
  by_cases hbuiltIn : isBuiltIn word = true
  · rw [if_pos hbuiltIn]
    dsimp only
    rw [if_pos hbuiltIn]
  · rw [if_neg hbuiltIn]
    dsimp only
    rw [if_neg hbuiltIn]

theorem launching_becomes (hcmd : getcmd (some line) args bg = some cmd) (hcnt : 0 < cmd.cnt)
    (h0 : base 0 ≠ none) (h1 : base 1 ≠ none) (hfree : TwoFree base) {k : Kernel Word}
    (hreach : ((launching opens base cmd).guard Kernel.Calm).Reachable k) :
    k.Becomes opens (Launched base) (commandPlan opens (commandWords line)) (TwoFree base)
      fun _ => True := by
  refine hreach.invariant ?_ ?_
  · rintro k rfl
    obtain ⟨word, rest, hwords, hstart⟩ := getcmd_start base hcmd hcnt
    have hplan : commandPlan opens (commandWords line) =
        if isBuiltIn word then [] else plan opens (commandWords line) := by
      cases hbuiltIn : isBuiltIn word <;> simp [commandPlan, hwords, hbuiltIn]
    rw [hstart, hplan]
    split
    · exact .staffed Kernel.staffed_empty
    · exact child_becomes commandWords_length h0 h1 hfree
  · rintro k e k' h ⟨hcalm, hstep⟩
    exact h.step hcalm hstep

/-- `ls | wc` -/
def lsWc : CString where
  bytes := [108, 115, 32, 124, 32, 119, 99, 10]
  no_nul := by simp

/-- The descriptors 0 to 2. -/
def threeOpen : Descriptors Word := fun d => if d < 3 then some (.given d) else none

/-- What is not given at the start comes from the launch. -/
theorem descriptors_eq {l : Launch} {d : Nat} {x : Object Word} (hx : base d ≠ some x)
    (h : l.descriptors base d = some x) :
    d = 0 ∧ l.stdin = some x ∨ d = 1 ∧ l.stdout = some x := by
  unfold Launch.descriptors at h
  by_cases h1 : d = 1
  · subst h1
    split at h
    · rw [Descriptors.set_self] at h
      exact Or.inr ⟨rfl, h⟩
    · split at h
      · rw [Descriptors.set_ne _ (by decide)] at h
        exact absurd h hx
      · exact absurd h hx
  · have hstdin : (if l.stdin.isSome then base.set 0 l.stdin else base) d = some x := by
      split at h
      · rwa [Descriptors.set_ne _ h1] at h
      · exact h
    split at hstdin
    · by_cases h0 : d = 0
      · subst h0
        rw [Descriptors.set_self] at hstdin
        exact Or.inl ⟨rfl, hstdin⟩
      · rw [Descriptors.set_ne _ h0] at hstdin
        exact absurd hstdin hx
    · exact absurd hstdin hx

theorem Launched.descriptors {l : Launch} {P : Process Word} (h : Launched base l P) {d : Nat}
    {x : Object Word} (hx : base d ≠ some x) (hP : P.fds d = some x) :
    d = 0 ∧ l.stdin = some x ∨ d = 1 ∧ l.stdout = some x := by
  cases h with
  | program => exact descriptors_eq hx hP
  | notFound => cases hP
  | noName => exact descriptors_eq hx hP

/-- Only a pipe has two launches. -/
theorem plan_cases (opens : Word → Prop) [DecidablePred opens] (ws : List Word) :
    (∃ l, plan opens ws = [l] ∧ l.stdin = none ∧ ∀ x, l.stdout = some x → ∃ name, x = .file name) ∨
    ∃ left rest, plan opens ws = [{ argv := rest, stdin := some (.readEnd 0) },
      { argv := left, stdout := some (.writeEnd 0) }] := by
  unfold plan
  split
  · exact Or.inl ⟨_, rfl, rfl, nofun⟩
  · next op rest _ =>
      dsimp only
      split
      · exact Or.inr ⟨_, _, rfl⟩
      · refine Or.inl ⟨_, rfl, ?_⟩
        cases rest with
        | nil => exact ⟨rfl, nofun⟩
        | cons name tail =>
            unfold redirectLaunch
            dsimp only
            split
            · exact ⟨rfl, fun x hx => ⟨name, (Option.some.inj hx).symm⟩⟩
            · exact ⟨rfl, nofun⟩

theorem commandPlan_cases (opens : Word → Prop) [DecidablePred opens] (ws : List Word) :
    commandPlan opens ws = plan opens ws ∨ commandPlan opens ws = [] := ite_eq_or_eq ..

/-- A process has no end of a pipe that its launch does not give it. -/
theorem Launched.not_end {l : Launch} {P : Process Word} (h : Launched base l P) {d : Nat}
    {x : Object Word} (hx : base d ≠ some x) (hin : l.stdin ≠ some x) (hout : l.stdout ≠ some x) :
    P.fds d ≠ some x := by
  intro hP
  rcases h.descriptors hx hP with ⟨-, hstdin⟩ | ⟨-, hstdout⟩
  · exact hin hstdin
  · exact hout hstdout

/-- Who holds the ends of pipes: the write end is the output of one process and
the read end the input of another. -/
theorem staffed_ends {k : Kernel Word} (hbase : ∀ d x, base d = some x → ∃ n, x = .given n)
    (h : k.Staffed (Launched base) (commandPlan opens ws)) :
    ∃ reader writer, reader ≠ writer ∧ ∀ i P d p, k.process i = some P →
      (P.fds d = some (.readEnd p) → i = reader ∧ d = 0) ∧
      (P.fds d = some (.writeEnd p) → i = writer ∧ d = 1) := by
  have hgiven : ∀ d x, (∀ n, x ≠ .given n) → base d ≠ some x := by
    intro d x hx h
    obtain ⟨n, hn⟩ := hbase d x h
    exact hx n hn
  have hread : ∀ d p, base d ≠ some (.readEnd p) := fun d p => hgiven d _ nofun
  have hwrite : ∀ d p, base d ≠ some (.writeEnd p) := fun d p => hgiven d _ nofun
  rcases commandPlan_cases opens ws with hplan | hplan <;> rw [hplan] at h
  swap
  · -- A built-in has no process.
    refine ⟨0, 1, by decide, fun i P d p hP => ?_⟩
    obtain ⟨l, hl, -⟩ := h.member hP
    cases hl
  rcases plan_cases opens ws with ⟨l, hplan, hin, hout⟩ | ⟨left, rest, hplan⟩
  · -- There is no pipe, and nobody has an end of one.
    rw [hplan] at h
    refine ⟨0, 1, by decide, fun i P d p hP => ?_⟩
    obtain ⟨l', hl', hlaunched⟩ := h.member hP
    obtain rfl := List.mem_singleton.mp hl'
    have hno : ∀ x, base d ≠ some x → (∀ name, x ≠ .file name) → P.fds d ≠ some x := by
      intro x hx hfile
      refine hlaunched.not_end hx (by rw [hin]; exact (Option.some_ne_none x).symm) fun hstdout => ?_
      obtain ⟨name, hname⟩ := hout x hstdout
      exact hfile name hname
    exact ⟨fun hd => absurd hd (hno _ (hread d p) nofun),
      fun hd => absurd hd (hno _ (hwrite d p) nofun)⟩
  · rw [hplan] at h
    obtain ⟨is, hnodup, hall, hrel⟩ := h
    cases hrel with
    | @cons reader _ _ _ hreader hrel =>
    cases hrel with
    | @cons writer _ _ _ hwriter hrel =>
    cases hrel
    obtain ⟨P₁, hP₁, hlaunched₁⟩ := hreader
    obtain ⟨P₂, hP₂, hlaunched₂⟩ := hwriter
    refine ⟨reader, writer, fun heq => ?_, fun i P d p hP => ?_⟩
    · rw [heq] at hnodup
      exact absurd List.mem_cons_self (List.nodup_cons.mp hnodup).1
    have hi := hall i (by rw [hP]; exact Option.some_ne_none P)
    rcases List.mem_cons.mp hi with rfl | hi
    · obtain rfl := Option.some.inj (hP.symm.trans hP₁)
      constructor
      · intro hd
        rcases hlaunched₁.descriptors (hread d p) hd with ⟨hd0, -⟩ | ⟨-, hno⟩
        · exact ⟨rfl, hd0⟩
        · cases hno
      · intro hd
        exact absurd hd (hlaunched₁.not_end (hwrite d p) nofun nofun)
    · obtain rfl := List.mem_singleton.mp hi
      obtain rfl := Option.some.inj (hP.symm.trans hP₂)
      constructor
      · intro hd
        exact absurd hd (hlaunched₂.not_end (hread d p) nofun nofun)
      · intro hd
        rcases hlaunched₂.descriptors (hwrite d p) hd with ⟨-, hno⟩ | ⟨hd1, -⟩
        · cases hno
        · exact ⟨rfl, hd1⟩

end

/-! ## A pipe that fails -/

/-- In a run in which `pipe` or `fork` fails, a pipe is dropped and not the command:
nothing runs but the words in front of the `|`, with the input and the output of the
shell. -/
theorem failed_pipe_runs_left {line : CString} {bg : Int} {cmd : Command} {left rest : List Word}
    (hcmd : getcmd (some line) args bg = some cmd) (hcnt : 0 < cmd.cnt)
    (h : commandWords line = left ++ pipeWord :: rest)
    (hplain : ∀ w ∈ left ++ rest, isOperator w = false) (h0 : base 0 ≠ none) (h1 : base 1 ≠ none) :
    ∀ tr k, (launching opens base cmd).Run tr k → (∃ i, Kernel.Event.exhausted i ∈ tr) →
      (∀ i argv fds, k.process i = some ⟨.program argv, fds⟩ →
        argv = left ∧ fds 0 = base 0 ∧ fds 1 = base 1) ∧
      (k.Done opens → k.Staffed (fun _ => Unpiped base left) [()]) := by
  intro tr k hrun hfail
  have hlen : (commandWords line).length - left.length = rest.length + 1 := by
    rw [h, List.length_append, List.length_cons]
    omega
  have hskip : childLoop (commandWords line).length 0 (argsOf (commandWords line)) =
      childLoop (rest.length + 1) left.length (argsOf (commandWords line)) := by
    rw [childLoop_skip commandWords_length h
      (fun w hw => hplain w (List.mem_append_left _ hw)) left.length (Nat.le_refl _), hlen]
  obtain ⟨ls, hbecomes⟩ : ∃ ls, Kernel.Becomes opens (Launched base) ls (TwoFree base)
      (fun k => k.Staffed (fun _ P => P.Ends opens (Unpiped base left)) [()]) (cmd.start base) := by
    obtain ⟨word, -, -, hstart⟩ := getcmd_start base hcmd hcnt
    rw [hstart, hskip]
    split
    · exact ⟨[], .staffed Kernel.staffed_empty⟩
    · exact ⟨_, pipe_becomes commandWords_length h h0 h1 fun fds n hfds0 hfds1 =>
        Kernel.staffed_single (unpiped_ends commandWords_length h
          (fun w hw => hplain w (List.mem_append_right _ hw)) hfds0 hfds1)⟩
  rcases hbecomes.run (fun _ _ _ hk hstep => hk.step hstep) hrun with ⟨hno, -⟩ | ⟨-, hk⟩
  · obtain ⟨i, hi⟩ := hfail
    exact absurd hi (hno i)
  refine ⟨fun i argv fds hP => ?_, hk.done⟩
  obtain ⟨-, -, hunpiped⟩ := hk.settled hP nofun
  cases hunpiped with
  | program _ hfds0 hfds1 => exact ⟨rfl, hfds0, hfds1⟩

/-- The pipe fails, and `ls` is run without it. -/
theorem failed_pipe_runs_left_lsWc : ∃ cmd k, getcmd (some lsWc) (fun _ => none) 0 = some cmd ∧
    (launching (fun _ => False) threeOpen cmd).Run [.move 0, .exhausted 0] k ∧
    k.process 0 = some ⟨.program [[108, 115]], threeOpen⟩ ∧
    (∀ i argv fds, k.process i = some ⟨.program argv, fds⟩ →
      argv = [[108, 115]] ∧ fds 0 = threeOpen 0 ∧ fds 1 = threeOpen 1) ∧
    k.Done (fun _ => False) ∧ k.Staffed (fun _ => Unpiped threeOpen [[108, 115]]) [()] := by
  obtain ⟨cmd, hcmd, hcnt⟩ : ∃ cmd, getcmd (some lsWc) (fun _ => none) 0 = some cmd ∧
      0 < cmd.cnt := ⟨_, getcmd_eq lsWc _ 0 (by decide) (by decide), by decide⟩
  have hwords : commandWords lsWc = [[108, 115]] ++ pipeWord :: [[119, 99]] := rfl
  obtain ⟨word, rest, hcons, hstart⟩ := getcmd_start threeOpen hcmd hcnt
  obtain ⟨rfl, -⟩ := List.cons.inj (hwords.symm.trans hcons)
  rw [if_neg (by decide)] at hstart
  obtain ⟨next, next', hpipe, hexec⟩ : ∃ next next', childLoop (commandWords lsWc).length 0
      (argsOf (commandWords lsWc)) = .call .pipe next ∧
      next { ret := -1 } = .call (.exec [108, 115] [[108, 115]]) next' := ⟨_, _, rfl, rfl⟩
  rw [hpipe] at hstart
  have hfails : (launching (fun _ => False) threeOpen cmd).Run [.exhausted 0]
      (.single ⟨.running (.call (.exec [108, 115] [[108, 115]]) next'), threeOpen⟩ 0) := by
    rw [← hexec, ← Kernel.set_single]
    exact .step (.start hstart.symm) (.exhausted rfl (Or.inl rfl))
  have hrun : (launching (fun _ => False) threeOpen cmd).Run [.move 0, .exhausted 0]
      (.single ⟨.program [[108, 115]], threeOpen⟩ 0) := by
    rw [← Kernel.set_single]
    exact .step hfails (.move rfl .exec)
  have hdone : (Kernel.single ⟨.program [[108, 115]], threeOpen⟩ 0).Done fun _ => False := by
    intro e k' _ hstep
    have hsettled : (⟨.program [[108, 115]], threeOpen⟩ : Process Word).Settled := nofun
    cases hstep with
    | move hP hmove =>
        obtain ⟨-, rfl⟩ := Kernel.single_process hP
        exact hsettled.not_moves hmove
    | pipe hP => cases (Kernel.single_process hP).2
    | fork hP => cases (Kernel.single_process hP).2
    | exhausted hP => cases (Kernel.single_process hP).2
  obtain ⟨hruns, hleft⟩ := failed_pipe_runs_left hcmd hcnt hwords (by decide)
    (Option.some_ne_none _) (Option.some_ne_none _) _ _ hrun
    ⟨0, List.mem_cons_of_mem _ List.mem_cons_self⟩
  exact ⟨cmd, _, hcmd, hrun, rfl, hruns, hdone, hleft hdone⟩

end OsConcepts.Shelly
