import OsConcepts.Lib.Bytes

/-!
# Reading a command

`getcmd` of `shelly.c`, on the line `getline` has read. A token is the list of
its bytes with a NUL behind them; bytes of the token behind an earlier NUL are
still in the list, as they are in memory. `args` has `MAX_INPUT_ARGS` = 5 cells,
`none` for NULL. The prompt, and `malloc` failing, are left out.
-/

namespace OsConcepts.Shelly

open OsConcepts

/-- The array `args` of `main`. -/
abbrev Args := Fin 5 → Option (List Byte)

/-- The value of a `char`, which is signed. -/
def charValue (b : Byte) : Int := if b.toNat < 128 then b.toNat else (b.toNat : Int) - 256

/-- `strlen`. -/
def strlen (token : List Byte) : Nat := (token.takeWhile (· != 0)).length

/-- What `strcpy` copies, the NUL left out. -/
def strcpy (token : List Byte) : List Byte := token.takeWhile (· != 0)

/-- `" \t\n"`. -/
def isDelimiter (b : Byte) : Bool := b == 32 || b == 9 || b == 10

/-- `strsep(&line, " \t\n")` on a line that is not NULL: the token, and what is
left of the line, NULL at its end. -/
def strsep (line : List Byte) : List Byte × Option (List Byte) :=
  (line.takeWhile (!isDelimiter ·),
    match line.dropWhile (!isDelimiter ·) with
    | [] => none
    | _ :: rest => some rest)

theorem strsep_length {line rest : List Byte} (h : (strsep line).2 = some rest) :
    rest.length < line.length := by
  have hle := (List.dropWhile_sublist (!isDelimiter ·) (l := line)).length_le
  unfold strsep at h
  dsimp only at h
  split at h
  · cases h
  · next b rest' heq =>
      cases h
      rw [heq, List.length_cons] at hle
      omega

/-- The turns an `int` can count before it wraps. What it wraps to is negative
and, compared with a `size_t`, past every length. -/
def intTurns : Nat := 2147483648

/-- The inner loop, the turn for `token[j]` the next of `n`: bytes up to the
space become NULs. -/
def cutToken : (n j : Nat) → List Byte → List Byte
  | 0, _, token => token
  | n + 1, j, token =>
      if j < strlen token then
        cutToken n (j + 1) (if charValue (token.getD j 0) ≤ 32 then token.set j 0 else token)
      else token

/-- The loop over the tokens, `i` of `args` filled. -/
def fillArgs (args : Args) (i : Nat) (line : List Byte) : Args × Nat :=
  let token := cutToken intTurns 0 (strsep line).1
  if h : i < 4 then
    let (args, i) :=
      if strlen token > 0 then
        (Function.update args ⟨i, by omega⟩ (some (strcpy token)), i + 1)
      else (args, i)
    match hrest : (strsep line).2 with
    | none => (args, i)
    | some rest => fillArgs args i rest
  else (args, i)
termination_by line.length
decreasing_by exact strsep_length hrest

/-- `resetArgs`. -/
def resetArgs (args : Args) : Args := fun i => if (args i).isSome then none else args i

/-- What `getcmd` returns, and what it leaves in `args` and `bg`. -/
structure Command where
  cnt : Int
  args : Args
  bg : Int

/-- `getcmd`, given what `getline` reads, or `none` at the end of the input. The
program exits there, and wherever else the length looks like -1 as an `int`. -/
def getcmd (input : Option CString) (args : Args) (bg : Int) : Option Command :=
  match input with
  | none => none
  | some line =>
      let length := wrap32 line.length
      if length = 0 then some ⟨0, args, bg⟩
      else if length = -1 then none
      else
        let (line, bg) : List Byte × Int :=
          match line.bytes.idxOf? 38 with
          | some loc => (line.bytes.set loc 32, 1)
          | none => (line.bytes, 0)
        let (args, i) := fillArgs (resetArgs args) 0 line
        some ⟨i, args, bg⟩

end OsConcepts.Shelly
