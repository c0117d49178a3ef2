import OsConcepts.Disk.Transfers
import OsConcepts.Lib.Interrupt

/-!
# The history of a disk, replayed

The disk keeps the history of its block writes. What a process has left behind
when it is stopped in the middle of a call is the file as it was, with the first
few of the call's writes done to it (`stoppedAt`). `Issues ws d d'` connects the
history with the emulator: the writes `ws` are what was added to the history, and
done to the one file they give the other. `Safely P` is the way from one disk to
another on which `P` holds wherever it is cut.
-/

namespace OsConcepts.Disk

open OsConcepts OsConcepts.Interrupt

variable {B M : Nat} {d d' d'' : Disk B M} {ws ws' : List (Nat × Mem)}

/-- The file that is left when a process is stopped: its bytes, with no stream
and no history. -/
def file (d : Disk B M) : Disk B M := { d with pos := 0, writes := [] }

/-- A write of the history, done to the file alone. -/
def put (d : Disk B M) (w : Nat × Mem) : Disk B M := ({ d with pos := w.1 }.fwrite w.2).file

/-- The writes between two disks, first to last. -/
def issued (d d' : Disk B M) : List (Nat × Mem) :=
  (d'.writes.take (d'.writes.length - d.writes.length)).reverse

/-- The file after the first `n` of them. -/
def stoppedAt (d d' : Disk B M) (n : Nat) : Disk B M := ((issued d d').take n).foldl put d.file

theorem file_moveTo (d : Disk B M) (p : Nat) : (d.moveTo p).file = d.file := rfl

theorem file_fwrite (d : Disk B M) (m : Mem) : (d.fwrite m).file = d.file.put (d.pos, m) := rfl

/-! ## Histories -/

/-- The writes `ws` lead from `d` to `d'`. -/
structure Issues (ws : List (Nat × Mem)) (d d' : Disk B M) : Prop where
  writes : d'.writes = ws.reverse ++ d.writes
  file : d'.file = ws.foldl put d.file

theorem Issues.refl (d : Disk B M) : Issues [] d d := ⟨rfl, rfl⟩

theorem Issues.moveTo (d : Disk B M) (p : Nat) : Issues [] d (d.moveTo p) := ⟨rfl, rfl⟩

theorem Issues.fwrite (d : Disk B M) (m : Mem) : Issues [(d.pos, m)] d (d.fwrite m) :=
  ⟨rfl, file_fwrite d m⟩

theorem Issues.trans (h : Issues ws d d') (h' : Issues ws' d' d'') :
    Issues (ws ++ ws') d d'' where
  writes := by rw [h'.writes, h.writes, List.reverse_append, List.append_assoc]
  file := by rw [h'.file, h.file, List.foldl_append]

theorem Issues.issued (h : Issues ws d d') : issued d d' = ws := by
  have hlen : d'.writes.length - d.writes.length = ws.reverse.length := by
    rw [h.writes, List.length_append, Nat.add_sub_cancel]
  rw [Disk.issued, hlen, h.writes, List.take_left, List.reverse_reverse]

/-- A call stopped where an earlier stretch of it ends leaves what that stretch
left. -/
theorem Issues.stoppedAt (h : Issues ws d d') (h' : Issues ws' d' d'') :
    stoppedAt d d'' ws.length = d'.file := by
  rw [Disk.stoppedAt, (h.trans h').issued, List.take_left, h.file]

/-- A transfer adds its blocks to the history, whatever it is asked for. -/
theorem issues_writeLoop {buf : Mem} : ∀ {n i : Nat} {d : Disk B M},
    ∃ ws, Issues ws d (writeLoop buf n i d) := by
  intro n
  induction n with
  | zero => intro i d; exact ⟨[], .refl d⟩
  | succ n ih =>
      intro i d
      obtain ⟨ws, h⟩ := ih (i := i + 1) (d := d.fwrite fun j => buf (i * B + j))
      exact ⟨_, (Issues.fwrite d _).trans h⟩

theorem issues_writeBlocks (d : Disk B M) (a n : Int) (buf : Mem) :
    ∃ ws, Issues ws d (d.writeBlocks a n buf).2 := by
  unfold writeBlocks
  split
  · exact ⟨[], .refl d⟩
  · obtain ⟨ws, h⟩ : ∃ ws, Issues ws (d.fseek (wrap32 (a * B)))
        (writeLoop buf n.toNat 0 (d.fseek (wrap32 (a * B)))) := issues_writeLoop
    have hseek : Issues [] d (d.fseek (wrap32 (a * B))) := by
      unfold fseek
      split
      · exact .refl d
      · exact .moveTo d _
    exact ⟨_, hseek.trans h⟩

/-! ## Cut anywhere -/

/-- From `d` to `d'` by writes between which `P` holds. -/
def Safely (P : Disk B M → Prop) (d d' : Disk B M) : Prop :=
  ∃ ws, Issues ws d d' ∧ Throughout put P d.file ws

variable {P : Disk B M → Prop}

theorem Safely.refl (h : P d.file) : Safely P d d := ⟨[], .refl d, throughout_nil h⟩

theorem Safely.moveTo (h : P d.file) (p : Nat) : Safely P d (d.moveTo p) :=
  ⟨[], .moveTo d p, throughout_nil h⟩

theorem Safely.trans (h : Safely P d d') (h' : Safely P d' d'') : Safely P d d'' := by
  obtain ⟨ws, hi, ht⟩ := h
  obtain ⟨ws', hi', ht'⟩ := h'
  rw [hi.file] at ht'
  exact ⟨ws ++ ws', hi.trans hi', ht.append ht'⟩

theorem Safely.last (h : Safely P d d') : P d'.file := by
  obtain ⟨ws, hi, ht⟩ := h
  rw [hi.file]
  exact ht.last

theorem Safely.stoppedAt (h : Safely P d d') (n : Nat) : P (stoppedAt d d' n) := by
  obtain ⟨ws, hi, ht⟩ := h
  rw [Disk.stoppedAt, hi.issued]
  exact ht n

theorem Safely.fwrite {m : Mem} (h : P d.file) (h' : P (d.fwrite m).file) :
    Safely P d (d.fwrite m) := ⟨_, .fwrite d m, throughout_singleton h h'⟩

theorem Safely.writeLoop {buf : Mem} : ∀ {n i : Nat} {d : Disk B M},
    (∀ j ≤ n, P (Disk.writeLoop buf j i d).file) → Safely P d (Disk.writeLoop buf n i d) := by
  intro n
  induction n with
  | zero => intro i d h; exact .refl (h 0 (Nat.le_refl 0))
  | succ n ih =>
      intro i d h
      refine (Safely.fwrite (h 0 (Nat.zero_le _)) (h 1 (by omega))).trans
        (ih (i := i + 1) fun j hj => ?_)
      exact h (j + 1) (by omega)

/-- A transfer of `n` blocks is cut where a shorter one would end. -/
theorem Safely.writeBlocks {buf : Mem} {a n : Nat} (hB : 0 < B) (hM : B * M < 2147483648)
    (h : a + n ≤ M) (hP : ∀ i : Nat, i ≤ n → P (d.writeBlocks a i buf).2.file) :
    Safely P d (d.writeBlocks a n buf).2 := by
  have hloop : ∀ i : Nat, i ≤ n → (d.writeBlocks a i buf).2 =
      Disk.writeLoop buf i 0 (d.moveTo (a * B)) := by
    intro i hi
    rw [writeBlocks_eq hB hM (by omega)]
  have hstart : P d.file := by
    have h0 := hP 0 (Nat.zero_le n)
    rwa [hloop 0 (Nat.zero_le n)] at h0
  rw [hloop n (Nat.le_refl n)]
  refine (Safely.moveTo hstart (a * B)).trans (.writeLoop fun i hi => ?_)
  rw [← hloop i hi]
  exact hP i hi

theorem Safely.writeBlock {buf : Mem} {a : Nat} (hB : 0 < B) (hM : B * M < 2147483648)
    (ha : a < M) (h : P d.file) (h' : P (d.writeBlocks a 1 buf).2.file) :
    Safely P d (d.writeBlocks a 1 buf).2 := by
  have hsafe : Safely P d (d.writeBlocks a ((1 : Nat) : Int) buf).2 := by
    refine Safely.writeBlocks hB hM ha ?_
    intro i hi
    rcases Nat.le_one_iff_eq_zero_or_eq_one.mp hi with rfl | rfl
    · rw [writeBlocks_eq hB hM (by omega), Disk.writeLoop, file_moveTo]
      exact h
    · rw [Nat.cast_one]
      exact h'
  rwa [Nat.cast_one] at hsafe

end OsConcepts.Disk
