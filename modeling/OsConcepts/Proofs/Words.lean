import Mathlib.Data.List.TakeWhile
import OsConcepts.Shelly.Getcmd

/-!
# The words of a command

`getcmd` cuts its line at the delimiters, skips what is empty and keeps four
tokens, which are the words of the line as long as the loop inside leaves them
alone. That loop ends a token at the first byte up to the space, and as a `char`
is signed the bytes from 128 on are among them: a word with one is cut short, and
a word that starts with one is lost, so that the words behind it move up.
-/

namespace OsConcepts.Shelly

open OsConcepts

variable {line w ws : List Byte} {n j : Nat}

/-- The words of a line: the longest runs without a delimiter, the first `&` of
the line counting as a space. -/
def words (line : List Byte) : List (List Byte) :=
  ((line.replace 38 32).splitOnP isDelimiter).filter (· ≠ [])

/-! ## Splitting -/

theorem strsep_cons_of_delimiter {b : Byte} (hb : isDelimiter b = true) (line : List Byte) :
    strsep (b :: line) = ([], some line) := by
  simp [strsep, hb]

theorem strsep_cons {b : Byte} (hb : isDelimiter b = false) (line : List Byte) :
    strsep (b :: line) = (b :: (strsep line).1, (strsep line).2) := by
  simp [strsep, hb]

/-- A token and what is left, against all tokens at once. -/
theorem strsep_splitOnP (line : List Byte) :
    line.splitOnP isDelimiter =
      match (strsep line).2 with
      | none => [(strsep line).1]
      | some rest => (strsep line).1 :: rest.splitOnP isDelimiter := by
  induction line with
  | nil => simp [strsep]
  | cons b line ih =>
      rw [List.splitOnP_cons_eq_if_modifyHead]
      by_cases hb : isDelimiter b = true
      · rw [if_pos hb, strsep_cons_of_delimiter hb]
      · rw [if_neg hb, strsep_cons (by simpa using hb), ih]
        dsimp only
        split <;> rfl

/-! ## Cutting -/

/-- The bytes the inner loop leaves of a token in `n` turns. -/
def shown : Nat → List Byte → List Byte
  | 0, w => w
  | _ + 1, [] => []
  | n + 1, b :: w => if charValue b ≤ 32 then [] else b :: shown n w

theorem strcpy_append_nul (pre w : List Byte) (hpre : ∀ b ∈ pre, b ≠ 0) :
    strcpy (pre ++ 0 :: w) = pre := by
  unfold strcpy
  rw [List.takeWhile_append_of_pos fun b hb => by simpa using hpre b hb]
  simp

theorem strcpy_eq_self (hw : ∀ b ∈ w, b ≠ 0) : strcpy w = w :=
  List.takeWhile_eq_self_iff.mpr fun b hb => by simpa using hw b hb

/-- What the loop has passed stays, and what is behind it is cut. -/
theorem cutToken_append : ∀ (n : Nat) (pre w : List Byte), (∀ b ∈ pre ++ w, b ≠ 0) →
    strcpy (cutToken n pre.length (pre ++ w)) = pre ++ shown n w := by
  intro n
  induction n with
  | zero =>
      intro pre w h
      exact strcpy_eq_self h
  | succ n ih =>
      intro pre w h
      have hpre : ∀ b ∈ pre, b ≠ 0 := fun b hb => h b (by simp [hb])
      have hlen : strlen (pre ++ w) = pre.length + w.length := by
        rw [← List.length_append]
        exact congrArg List.length (strcpy_eq_self h)
      rw [cutToken, hlen]
      cases w with
      | nil =>
          rw [if_neg (by simp), List.append_nil, strcpy_eq_self hpre, shown, List.append_nil]
      | cons b w =>
          have hget : (pre ++ b :: w).getD pre.length 0 = b := by simp
          rw [if_pos (by simp), hget, shown]
          split
          · -- The NUL put there ends the token and the loop.
            have hset : (pre ++ b :: w).set pre.length 0 = pre ++ 0 :: w := by simp
            have hstop : cutToken n (pre.length + 1) (pre ++ 0 :: w) = pre ++ 0 :: w := by
              cases n with
              | zero => rfl
              | succ n =>
                  rw [cutToken, if_neg]
                  have : strlen (pre ++ 0 :: w) = pre.length :=
                    congrArg List.length (strcpy_append_nul pre w hpre)
                  omega
            rw [hset, hstop, strcpy_append_nul pre w hpre, List.append_nil]
          · have := ih (pre ++ [b]) w (by simpa using h)
            simpa using this

theorem cutToken_eq (n : Nat) (hw : ∀ b ∈ w, b ≠ 0) : strcpy (cutToken n 0 w) = shown n w :=
  cutToken_append n [] w hw

/-! ## Filling `args` -/

/-- `args` with these tokens, and NULL behind them. -/
def argsOf (found : List (List Byte)) : Args := fun i => found[i.val]?

theorem argsOf_append {found : List (List Byte)} (h : found.length < 5) (w : List Byte) :
    Function.update (argsOf found) ⟨found.length, h⟩ (some w) = argsOf (found ++ [w]) := by
  funext i
  unfold argsOf
  by_cases hi : i.val = found.length
  · rw [show i = ⟨found.length, h⟩ from Fin.ext hi, Function.update_self]
    simp
  · rw [Function.update_of_ne fun heq => hi (congrArg Fin.val heq)]
    by_cases hlt : i.val < found.length
    · rw [List.getElem?_append_left hlt]
    · rw [List.getElem?_eq_none (by omega), List.getElem?_eq_none (by simp; omega)]

theorem resetArgs_eq (args : Args) : resetArgs args = argsOf [] := by
  funext i
  unfold resetArgs argsOf
  cases args i <;> rfl

/-- What is left of the tokens, the empty ones skipped. -/
def kept (tokens : List (List Byte)) : List (List Byte) :=
  (tokens.map (shown intTurns)).filter (· ≠ [])

theorem kept_cons (w : List Byte) (ws : List (List Byte)) :
    kept (w :: ws) = (if shown intTurns w = [] then [] else [shown intTurns w]) ++ kept ws := by
  unfold kept
  rw [List.map_cons, List.filter_cons]
  by_cases h : shown intTurns w = [] <;> simp [h]

theorem strsep_no_nul (hline : ∀ b ∈ line, b ≠ 0) :
    (∀ b ∈ (strsep line).1, b ≠ 0) ∧
      ∀ rest, (strsep line).2 = some rest → ∀ b ∈ rest, b ≠ 0 := by
  refine ⟨fun b hb => hline b ((List.takeWhile_sublist _).subset hb), ?_⟩
  intro rest hrest b hb
  unfold strsep at hrest
  dsimp only at hrest
  split at hrest
  · cases hrest
  · next c rest' heq =>
      cases hrest
      refine hline b ((List.dropWhile_sublist (!isDelimiter ·)).subset ?_)
      rw [heq]
      exact List.mem_cons_of_mem c hb

/-- The loop puts the tokens that are left into `args` until four are there. -/
theorem fillArgs_eq (line : List Byte) (found : List (List Byte)) (hline : ∀ b ∈ line, b ≠ 0)
    (hfound : found.length ≤ 4) :
    fillArgs (argsOf found) found.length line =
      (argsOf ((found ++ kept (line.splitOnP isDelimiter)).take 4),
        ((found ++ kept (line.splitOnP isDelimiter)).take 4).length) := by
  obtain ⟨htoken, hrest⟩ := strsep_no_nul hline
  have hcut : strcpy (cutToken intTurns 0 (strsep line).1) = shown intTurns (strsep line).1 :=
    cutToken_eq intTurns htoken
  have hlen : strlen (cutToken intTurns 0 (strsep line).1) =
      (shown intTurns (strsep line).1).length :=
    congrArg List.length hcut
  rw [fillArgs, strsep_splitOnP]
  by_cases hroom : found.length < 4
  · rw [dif_pos hroom, hlen, hcut]
    by_cases hempty : shown intTurns (strsep line).1 = []
    · rw [if_neg (by simp [hempty])]
      dsimp only
      split
      · next heq =>
          rw [heq, kept_cons, if_pos hempty]
          simp [kept, List.take_of_length_le hfound]
      · next rest heq =>
          rw [heq, fillArgs_eq rest found (hrest rest heq) hfound, kept_cons, if_pos hempty,
            List.nil_append]
    · have hpos : (shown intTurns (strsep line).1).length > 0 := List.length_pos_iff.mpr hempty
      have hmore : (found ++ [shown intTurns (strsep line).1]).length = found.length + 1 := by simp
      rw [if_pos hpos]
      dsimp only
      rw [argsOf_append (by omega), ← hmore]
      split
      · next heq =>
          rw [heq, kept_cons, if_neg hempty]
          simp only [kept, List.map_nil, List.filter_nil, List.append_nil]
          rw [List.take_of_length_le (by omega)]
      · next rest heq =>
          rw [heq, fillArgs_eq rest _ (hrest rest heq) (by omega), kept_cons, if_neg hempty,
            List.append_assoc]
  · have hfull : found.length = 4 := by omega
    rw [dif_neg hroom, List.take_left' hfull]
termination_by line.length
decreasing_by all_goals exact strsep_length ‹_›

/-! ## What the words lose -/

theorem shown_shown : ∀ (n : Nat) (w : List Byte), shown n (shown n w) = shown n w
  | 0, _ => rfl
  | _ + 1, [] => rfl
  | n + 1, b :: w => by
      rw [shown]
      split
      · rfl
      · next hb => rw [shown, if_neg hb, shown_shown n w]

theorem shown_eq_self : ∀ {n : Nat} {w : List Byte},
    shown n w = w ↔ ∀ b ∈ w.take n, 32 < charValue b
  | 0, w => by simp [shown]
  | n + 1, [] => by simp [shown]
  | n + 1, b :: w => by
      rw [shown, List.take_succ_cons, List.forall_mem_cons]
      split
      · next hb => exact iff_of_false (by simp) fun h => by have := h.1; omega
      · next hb =>
          rw [List.cons.injEq, shown_eq_self]
          exact ⟨fun h => ⟨by omega, h.2⟩, fun h => ⟨rfl, h.2⟩⟩

theorem kept_filter (ws : List (List Byte)) : kept (ws.filter (· ≠ [])) = kept ws := by
  induction ws with
  | nil => rfl
  | cons w ws ih =>
      rw [List.filter_cons, kept_cons]
      by_cases hw : w = []
      · rw [hw, if_pos (show shown intTurns [] = [] from rfl)]
        simpa using ih
      · rw [if_pos (by simpa using hw), kept_cons, ih]

/-- The first `n` tokens that are left are the first `n` words only if each of
those is left whole: no later word can stand in for one that is lost, since it
would be lost as well. -/
theorem kept_eq_iff : ∀ (n : Nat) {ws : List (List Byte)}, (∀ w ∈ ws, w ≠ []) →
    ((kept ws).take n = ws.take n ↔ ∀ w ∈ ws.take n, shown intTurns w = w) := by
  intro n
  induction n with
  | zero => intro ws _; simp
  | succ n ih =>
      intro ws hws
      cases ws with
      | nil => simp [kept]
      | cons w ws =>
          have hw : w ≠ [] := hws w (by simp)
          rw [kept_cons, List.take_succ_cons, List.forall_mem_cons]
          by_cases hlost : shown intTurns w = []
          · rw [if_pos hlost, List.nil_append]
            refine iff_of_false (fun heq => hw ?_) fun h => hw (h.1.symm.trans hlost)
            have hmem : w ∈ kept ws := List.mem_of_mem_take (heq ▸ List.mem_cons_self)
            obtain ⟨v, -, hv⟩ := List.mem_map.mp (List.mem_filter.mp hmem).1
            rw [← hv, shown_shown, hv] at hlost
            exact hlost
          · rw [if_neg hlost, List.cons_append, List.nil_append, List.take_succ_cons,
              List.cons.injEq, ih fun v hv => hws v (by simp [hv])]

/-! ## The line -/

theorem mem_splitOnP : ∀ {line w : List Byte}, w ∈ line.splitOnP isDelimiter →
    ∀ b ∈ w, isDelimiter b = false ∧ b ∈ line := by
  intro line
  induction line with
  | nil =>
      intro w hw b hb
      rw [List.splitOnP_nil, List.mem_singleton] at hw
      rw [hw] at hb
      cases hb
  | cons c line ih =>
      intro w hw b hb
      have hlater : ∀ v ∈ line.splitOnP isDelimiter, b ∈ v →
          isDelimiter b = false ∧ b ∈ c :: line := fun v hv hbv =>
        ⟨(ih hv b hbv).1, List.mem_cons_of_mem c (ih hv b hbv).2⟩
      rw [List.splitOnP_cons_eq_if_modifyHead] at hw
      split at hw
      · rcases List.mem_cons.mp hw with rfl | hw
        · cases hb
        · exact hlater w hw hb
      · next hc =>
          obtain ⟨v, vs, hvs⟩ := List.exists_cons_of_ne_nil (List.splitOnP_ne_nil isDelimiter line)
          rw [hvs, List.modifyHead_cons] at hw
          rcases List.mem_cons.mp hw with rfl | hw
          · rcases List.mem_cons.mp hb with rfl | hb
            · exact ⟨by simpa using hc, List.mem_cons_self⟩
            · exact hlater v (by simp [hvs]) hb
          · exact hlater w (by simp [hvs, hw]) hb

/-- Overwriting the first `&` where `index` finds it. -/
theorem replace_eq_set (line : List Byte) :
    line.replace 38 32 = match line.idxOf? 38 with
      | some loc => line.set loc 32
      | none => line := by
  induction line with
  | nil => rfl
  | cons b line ih =>
      rw [List.idxOf?_cons, List.replace_cons]
      by_cases hb : b = 38
      · simp [hb]
      · have hne : (b == 38) = false := by simpa using hb
        have hne' : (38 == b) = false := by simpa using fun h => hb h.symm
        rw [hne, hne', ih]
        cases line.idxOf? 38 <;> rfl

theorem mem_replace {b : Byte} (hb : b ∈ line.replace 38 32) : b ∈ line ∨ b = 32 := by
  rw [replace_eq_set] at hb
  cases hloc : line.idxOf? 38 with
  | none =>
      rw [hloc] at hb
      exact Or.inl hb
  | some loc =>
      rw [hloc] at hb
      exact List.mem_or_eq_of_mem_set hb

/-- The command `getcmd` makes of a line whose length it can read. -/
theorem getcmd_eq (line : CString) (args : Args) (bg : Int) (hzero : wrap32 line.length ≠ 0)
    (hexit : wrap32 line.length ≠ -1) :
    getcmd (some line) args bg =
      some ⟨((kept (words line.bytes)).take 4).length, argsOf ((kept (words line.bytes)).take 4),
        if 38 ∈ line.bytes then 1 else 0⟩ := by
  have hnul : ∀ b ∈ line.bytes.replace 38 32, b ≠ 0 := by
    intro b hb
    rcases mem_replace hb with hb | rfl
    · exact line.no_nul b hb
    · decide
  have hfill := fillArgs_eq (line.bytes.replace 38 32) [] hnul (by simp)
  rw [List.nil_append, ← kept_filter, ← words, List.length_nil] at hfill
  generalize words line.bytes = ws at hfill ⊢
  rw [replace_eq_set] at hfill
  unfold getcmd
  dsimp only
  rw [if_neg hzero, if_neg hexit, resetArgs_eq]
  cases hloc : line.bytes.idxOf? 38 with
  | none =>
      rw [hloc] at hfill
      rw [if_neg (List.idxOf?_eq_none_iff.mp hloc)]
      dsimp only at hfill ⊢
      rw [hfill]
  | some loc =>
      have hmem : 38 ∈ line.bytes := by
        by_contra hno
        rw [List.idxOf?_eq_none_iff.mpr hno] at hloc
        cases hloc
      rw [hloc] at hfill
      rw [if_pos hmem]
      dsimp only at hfill ⊢
      rw [hfill]

/-! ## The condition -/

/-- What `getcmd` is to make of a line: the number of its words if there are no
more than four, the first four words with NULL behind them, and whether there
was a `&`. -/
structure Splits (line : List Byte) (cmd : Command) : Prop where
  cnt : (words line).length ≤ 4 → cmd.cnt = (words line).length
  args : ∀ i : Fin 5, cmd.args i = ((words line).take 4)[i.val]?
  bg : cmd.bg = if 38 ∈ line then 1 else 0

/-- No control characters but the tab and the newline. -/
def Plain (line : CString) : Prop := ∀ b ∈ line.bytes, b = 9 ∨ b = 10 ∨ 32 ≤ b

/-- The length of the line as an `int` is not 0 or -1, and none of the first
four words has a byte from 128 on, in the part the inner loop gets to. -/
structure Keepable (line : CString) : Prop where
  notEmpty : wrap32 line.length ≠ 0
  notEnd : wrap32 line.length ≠ -1
  ascii : ∀ w ∈ (words line.bytes).take 4, ∀ b ∈ w.take intTurns, b < 128

theorem argsOf_eq_iff {found ws : List (List Byte)} (hfound : found.length ≤ 4)
    (hws : ws.length ≤ 4) : (∀ i : Fin 5, argsOf found i = ws[i.val]?) ↔ found = ws := by
  constructor
  · intro h
    refine List.ext_getElem? ?_
    intro i
    by_cases hi : i < 5
    · exact h ⟨i, hi⟩
    · rw [List.getElem?_eq_none (by omega), List.getElem?_eq_none (by omega)]
  · rintro rfl i
    rfl

/-- Of the bytes of a word, the loop takes those from 128 on for control
characters. -/
theorem charValue_of_word {line : CString} (hplain : Plain line) (hw : w ∈ words line.bytes)
    {b : Byte} (hb : b ∈ w) : 32 < charValue b ↔ b < 128 := by
  obtain ⟨hdelim, hmem⟩ := mem_splitOnP (List.mem_filter.mp hw).1 b hb
  have hspace : b ≠ 32 := by
    rintro rfl
    exact absurd hdelim (by decide)
  have hlow : 32 < b.toNat := by
    have hne : b.toNat ≠ 32 := fun h => hspace (UInt8.toNat_inj.mp h)
    rcases mem_replace hmem with hmem | rfl
    · rcases hplain b hmem with rfl | rfl | hle
      · exact absurd hdelim (by decide)
      · exact absurd hdelim (by decide)
      · have : 32 ≤ b.toNat := UInt8.le_iff_toNat_le.mp hle
        omega
    · exact absurd rfl hspace
  rw [UInt8.lt_iff_toNat_lt, charValue]
  have h128 : (128 : Byte).toNat = 128 := rfl
  have := b.toNat_lt
  split <;> omega

theorem kept_words_iff {line : CString} (hplain : Plain line) :
    (kept (words line.bytes)).take 4 = (words line.bytes).take 4 ↔
      ∀ w ∈ (words line.bytes).take 4, ∀ b ∈ w.take intTurns, b < 128 := by
  rw [kept_eq_iff 4 fun w hw => by simpa using (List.mem_filter.mp hw).2]
  constructor
  · intro h w hw b hb
    refine (charValue_of_word hplain (List.mem_of_mem_take hw) (List.mem_of_mem_take hb)).mp ?_
    exact shown_eq_self.mp (h w hw) b hb
  · intro h w hw
    refine shown_eq_self.mpr ?_
    intro b hb
    exact (charValue_of_word hplain (List.mem_of_mem_take hw) (List.mem_of_mem_take hb)).mpr
      (h w hw b hb)

/-- Whatever is in `args` and `bg` before, `getcmd` splits a line into its words
exactly when it can read the line's length and the words it keeps have only
bytes below 128. -/
theorem getcmd_splits_iff {line : CString} (hplain : Plain line) :
    (∀ args bg, ∃ cmd, getcmd (some line) args bg = some cmd ∧ Splits line.bytes cmd) ↔
      Keepable line := by
  constructor
  · intro h
    have hzero : wrap32 line.length ≠ 0 := by
      intro hzero
      -- The call returns at once, and `args` is as it was.
      obtain ⟨cmd, hcmd, hsplits⟩ := h (fun _ => some []) 0
      have hargs := hsplits.args 4
      unfold getcmd at hcmd
      dsimp only at hcmd
      rw [if_pos hzero] at hcmd
      cases hcmd
      have hnone : ((words line.bytes).take 4)[(4 : Fin 5).val]? = none :=
        List.getElem?_eq_none (List.length_take_le 4 _)
      cases hargs.trans hnone
    have hexit : wrap32 line.length ≠ -1 := by
      intro hexit
      obtain ⟨cmd, hcmd, -⟩ := h (fun _ => none) 0
      unfold getcmd at hcmd
      dsimp only at hcmd
      rw [if_neg hzero, if_pos hexit] at hcmd
      cases hcmd
    obtain ⟨cmd, hcmd, hsplits⟩ := h (fun _ => none) 0
    rw [getcmd_eq line _ _ hzero hexit] at hcmd
    cases hcmd
    have hargs :=
      (argsOf_eq_iff (List.length_take_le 4 _) (List.length_take_le 4 _)).mp hsplits.args
    exact ⟨hzero, hexit, (kept_words_iff hplain).mp hargs⟩
  · intro h args bg
    have hkept := (kept_words_iff hplain).mpr h.ascii
    refine ⟨_, getcmd_eq line args bg h.notEmpty h.notEnd, ?_, fun i => ?_, rfl⟩
    · intro hle
      rw [hkept, List.take_of_length_le hle]
    · rw [hkept]
      rfl

/-- `echo hi &` -/
def echoHi : CString where
  bytes := [101, 99, 104, 111, 32, 104, 105, 32, 38, 10]
  no_nul := by simp

theorem getcmd_splits_echoHi :
    words echoHi.bytes = [[101, 99, 104, 111], [104, 105]] ∧
      ∀ args bg, ∃ cmd, getcmd (some echoHi) args bg = some cmd ∧ Splits echoHi.bytes cmd := by
  have hwords : words echoHi.bytes = [[101, 99, 104, 111], [104, 105]] := by decide
  have hascii : ∀ w ∈ words echoHi.bytes, ∀ b ∈ w, b < 128 := by
    rw [hwords]
    simp
  exact ⟨hwords, (getcmd_splits_iff (by simp [Plain, echoHi])).mpr ⟨by decide, by decide,
    fun w hw b hb => hascii w (List.mem_of_mem_take hw) b (List.mem_of_mem_take hb)⟩⟩

/-- `echo é` in UTF-8. -/
def echoAcute : CString where
  bytes := [101, 99, 104, 111, 32, 195, 169, 10]
  no_nul := by simp

/-- The second word is lost. -/
theorem getcmd_loses_acute :
    Plain echoAcute ∧ words echoAcute.bytes = [[101, 99, 104, 111], [195, 169]] ∧
      (getcmd (some echoAcute) (fun _ => none) 0).map Command.cnt = some 1 ∧
      ¬ ∀ args bg, ∃ cmd, getcmd (some echoAcute) args bg = some cmd ∧
        Splits echoAcute.bytes cmd := by
  have hwords : words echoAcute.bytes = [[101, 99, 104, 111], [195, 169]] := by decide
  have hkept : kept (words echoAcute.bytes) = [[101, 99, 104, 111]] := by
    rw [hwords]
    decide
  have hcmd := getcmd_eq echoAcute (fun _ => none) 0 (by decide) (by decide)
  rw [hkept] at hcmd
  refine ⟨by simp [Plain, echoAcute], hwords, by rw [hcmd]; rfl, ?_⟩
  intro hall
  obtain ⟨cmd, hget, hsplits⟩ := hall (fun _ => none) 0
  have hcnt := hsplits.cnt (by rw [hwords]; decide)
  rw [hcmd] at hget
  rw [← Option.some.inj hget, hwords] at hcnt
  exact absurd hcnt (by decide)

end OsConcepts.Shelly
