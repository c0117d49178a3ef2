import Mathlib.Tactic.Linarith
import OsConcepts.Disk.Emulator

/-!
# Where transfers land

A request whose blocks lie on the disk is done in place: `write_blocks` puts
the pieces of its buffer into exactly the blocks it names, `read_blocks`
delivers what they hold, and both leave the stream behind the last of them.
A request at a negative address is not refused. Its seek fails, so it is done
wherever the previous transfer stopped; `writeBlocks_neg` is that case.

`B * M` below `2 ^ 31` keeps `start_address * BLOCK_SIZE` from wrapping. The
file system's disk meets it, and so does any disk small enough for the `int`
arithmetic of the emulator.
-/

namespace OsConcepts.Disk

variable {B M : Nat}

/-- The contents of a block. -/
def block (d : Disk B M) (b : Nat) : Fin B → Byte := fun j => d.bytes (b * B + j)

/-! ## The stream -/

/-- The disk with its stream moved. -/
def moveTo (d : Disk B M) (p : Nat) : Disk B M := { d with pos := p }

@[simp] theorem pos_moveTo (d : Disk B M) (p : Nat) : (d.moveTo p).pos = p := rfl

@[simp] theorem bytes_moveTo (d : Disk B M) (p : Nat) : (d.moveTo p).bytes = d.bytes := rfl

@[simp] theorem block_moveTo (d : Disk B M) (p b : Nat) : (d.moveTo p).block b = d.block b := rfl

@[simp] theorem moveTo_moveTo (d : Disk B M) (p q : Nat) : (d.moveTo p).moveTo q = d.moveTo q := rfl

theorem moveTo_pos (d : Disk B M) : d.moveTo d.pos = d := rfl

theorem fseek_neg {d : Disk B M} {off : Int} (h : off < 0) : d.fseek off = d :=
  if_pos h

theorem fseek_natCast (d : Disk B M) (off : Nat) :
    d.fseek (off : Int) = d.moveTo off := by
  rw [fseek, if_neg (by omega), Int.toNat_natCast, moveTo]

theorem fseek_disk_pos (offset : Int) (d : Disk B M) : ∃ p, d.fseek offset = d.moveTo p := by
  unfold fseek
  split
  · exact ⟨d.pos, rfl⟩
  · exact ⟨offset.toNat, rfl⟩

theorem block_lt_size {d : Disk B M} {b : Nat} (hb : b < M) (j : Fin B) :
    b * B + j < d.size := by
  have hj := j.isLt
  have hfull := d.full
  have : (b + 1) * B ≤ M * B := Nat.mul_le_mul_right B hb
  rw [Nat.succ_mul] at this
  rw [Nat.mul_comm B M] at hfull
  omega

theorem mul_add_lt_iff {a b : Nat} (j : Fin B) : b * B + j < a * B ↔ b < a := by
  have hj := j.isLt
  constructor
  · intro h
    by_contra hge
    have := Nat.mul_le_mul_right B (Nat.le_of_not_lt hge)
    omega
  · intro h
    have := Nat.mul_le_mul_right B (Nat.succ_le_of_lt h)
    rw [Nat.succ_mul] at this
    omega

theorem le_mul_add_iff {a b : Nat} (j : Fin B) : a * B ≤ b * B + j ↔ a ≤ b := by
  rw [← Nat.not_lt, mul_add_lt_iff, Nat.not_lt]

/-! ## The loops -/

theorem writeLoop_pos {buf : Mem} : ∀ {n i : Nat} {d : Disk B M},
    (writeLoop buf n i d).pos = d.pos + n * B := by
  intro n
  induction n with
  | zero => intro i d; simp [writeLoop]
  | succ n ih =>
      intro i d
      rw [writeLoop, ih, Nat.succ_mul]
      simp only [fwrite]
      omega

theorem writeLoop_bytes {buf : Mem} : ∀ {n i : Nat} {d : Disk B M} {k : Nat},
    d.pos + n * B ≤ d.size → k < d.size →
    (writeLoop buf n i d).bytes k =
      if d.pos ≤ k ∧ k < d.pos + n * B then buf (i * B + (k - d.pos))
      else d.bytes k := by
  intro n
  induction n with
  | zero =>
      intro i d k _ _
      rw [writeLoop, if_neg (by omega)]
  | succ n ih =>
      intro i d k hroom hk
      rw [Nat.succ_mul] at hroom ⊢
      rw [writeLoop, ih (by simp only [fwrite]; omega) (by simp only [fwrite]; omega)]
      simp only [fwrite, hk, if_true]
      split
      · next h =>
          rw [if_pos (by omega)]
          congr 1
          rw [Nat.succ_mul]
          omega
      · next h =>
          split
          · next h' => rw [if_pos (by omega)]
          · next h' => rw [if_neg (by omega)]

theorem readLoop_disk {junk : Mem} : ∀ {n i : Nat} {buf : Mem} {d : Disk B M},
    d.pos + n * B ≤ d.size →
    (readLoop junk n i buf d).2 = d.moveTo (d.pos + n * B) := by
  intro n
  induction n with
  | zero => intro i buf d _; simp [readLoop, moveTo_pos]
  | succ n ih =>
      intro i buf d hroom
      rw [Nat.succ_mul] at hroom
      have hpos : (d.fread junk).2.pos = d.pos + B := by simp only [fread]; omega
      rw [readLoop]
      simp only []
      rw [ih (by rw [hpos]; simp only [fread]; omega), hpos, Nat.succ_mul,
        show d.pos + B + n * B = d.pos + (n * B + B) by omega]
      simp only [fread, moveTo]

theorem readLoop_buffer {junk : Mem} : ∀ {n i : Nat} {buf : Mem} {d : Disk B M} {k : Nat},
    d.pos + n * B ≤ d.size →
    (readLoop junk n i buf d).1 k =
      if i * B ≤ k ∧ k < (i + n) * B then d.bytes (d.pos + (k - i * B))
      else buf k := by
  intro n
  induction n with
  | zero =>
      intro i buf d k _
      rw [readLoop, if_neg (by rw [Nat.add_zero]; omega)]
  | succ n ih =>
      intro i buf d k hroom
      rw [Nat.succ_mul] at hroom
      have hpos : (d.fread junk).2.pos = d.pos + B := by simp only [fread]; omega
      have hstep : (i + (n + 1)) * B = i * B + n * B + B := by
        simp only [Nat.add_mul, Nat.one_mul]; omega
      have hnext : (i + 1 + n) * B = i * B + n * B + B := by
        simp only [Nat.add_mul, Nat.one_mul]; omega
      rw [readLoop]
      simp only []
      rw [ih (by rw [hpos]; simp only [fread]; omega), hpos, hstep, hnext, Nat.succ_mul]
      simp only [fread, memcpy]
      split
      · next h =>
          rw [if_pos (by omega)]
          congr 1
          omega
      · next h =>
          split
          · next h' => rw [if_pos (by omega), if_pos (by omega)]
          · next h' => rw [if_neg (by omega)]

/-- Whatever is asked for, a read moves the stream and nothing else. -/
theorem readBlocks_disk_pos (junk buffer : Mem) (a n : Int) (d : Disk B M) :
    ∃ p, (d.readBlocks junk a n buffer).2.2 = d.moveTo p := by
  have hloop : ∀ (m i : Nat) (buf : Mem) (d : Disk B M),
      ∃ p, (readLoop junk m i buf d).2 = d.moveTo p := by
    intro m
    induction m with
    | zero => intro i buf d; exact ⟨d.pos, rfl⟩
    | succ m ih =>
        intro i buf d
        obtain ⟨p, hp⟩ := ih (i + 1) (memcpy buf (i * B) (d.fread junk).1 B) (d.fread junk).2
        exact ⟨p, hp⟩
  unfold readBlocks
  split
  · exact ⟨d.pos, rfl⟩
  · obtain ⟨q, hq⟩ := fseek_disk_pos (wrap32 (a * B)) d
    obtain ⟨p, hp⟩ := hloop n.toNat 0 buffer (d.fseek (wrap32 (a * B)))
    exact ⟨p, by rw [hp, hq, moveTo_moveTo]⟩

/-! ## Requests on the disk -/

theorem wrap32_address {a n : Nat} (hB : 0 < B) (hM : B * M < 2147483648)
    (h : a + n ≤ M) :
    wrap32 ((a : Int) + n) = ((a + n : Nat) : Int) ∧
      wrap32 ((a : Int) * B) = ((a * B : Nat) : Int) := by
  have hMB : M ≤ B * M := Nat.le_mul_of_pos_left M hB
  have haB : a * B ≤ M * B := Nat.mul_le_mul_right B (by omega)
  rw [Nat.mul_comm M B] at haB
  constructor
  · rw [wrap32_of_range ⟨by omega, by omega⟩]; omega
  · rw [← Int.natCast_mul, wrap32_of_range ⟨by omega, by omega⟩]

theorem room {d : Disk B M} {a n : Nat} (h : a + n ≤ M) : a * B + n * B ≤ d.size := by
  have := d.full
  have hmul : (a + n) * B ≤ M * B := Nat.mul_le_mul_right B h
  rw [Nat.add_mul] at hmul
  rw [Nat.mul_comm B M] at this
  omega

theorem writeBlocks_eq {buf : Mem} {d : Disk B M} {a n : Nat} (hB : 0 < B)
    (hM : B * M < 2147483648) (h : a + n ≤ M) :
    d.writeBlocks a n buf = ((n : Int), writeLoop buf n 0 (d.moveTo (a * B))) := by
  obtain ⟨hadd, hmul⟩ := wrap32_address hB hM h
  simp only [writeBlocks, hadd, hmul, fseek_natCast, Int.toNat_natCast]
  rw [if_neg (by omega)]

/-- From the start of block `a` on, every block keeps its contents or gets its
piece of the buffer. -/
theorem writeLoop_block (buf : Mem) {d : Disk B M} {a n b : Nat} (h : a + n ≤ M) (hb : b < M) :
    (writeLoop buf n 0 (d.moveTo (a * B))).block b =
      if a ≤ b ∧ b < a + n then fun j : Fin B => buf ((b - a) * B + j)
      else d.block b := by
  funext j
  have hlt : b * B + j < d.size := block_lt_size hb j
  simp only [block]
  rw [writeLoop_bytes (d := d.moveTo (a * B)) (room h) hlt]
  simp only [pos_moveTo, bytes_moveTo, Nat.zero_mul, Nat.zero_add, ← Nat.add_mul,
    le_mul_add_iff, mul_add_lt_iff]
  split
  · next hin =>
      congr 1
      obtain ⟨c, rfl⟩ := Nat.exists_eq_add_of_le hin.1
      rw [Nat.add_sub_cancel_left, Nat.add_mul]
      omega
  · rfl

theorem writeBlocks_block (buf : Mem) {d : Disk B M} {a n b : Nat} (hB : 0 < B)
    (hM : B * M < 2147483648) (h : a + n ≤ M) (hb : b < M) :
    (d.writeBlocks a n buf).2.block b =
      if a ≤ b ∧ b < a + n then fun j : Fin B => buf ((b - a) * B + j)
      else d.block b := by
  rw [writeBlocks_eq hB hM h]
  exact writeLoop_block buf h hb

theorem writeBlocks_pos {buf : Mem} {d : Disk B M} {a n : Nat} (hB : 0 < B)
    (hM : B * M < 2147483648) (h : a + n ≤ M) :
    (d.writeBlocks a n buf).2.pos = (a + n) * B := by
  rw [writeBlocks_eq hB hM h, writeLoop_pos, pos_moveTo, Nat.add_mul]

/-- A request at a negative address writes wherever the stream stands. -/
theorem writeBlocks_neg {buf : Mem} {d : Disk B M} {a : Int} (hB : 0 < B)
    (h : a < 0) (ha : -2147483648 ≤ a * B) :
    d.writeBlocks a 1 buf = (1, d.fwrite buf) := by
  have hBa : a * B ≤ a := by nlinarith
  have hMpos : (0 : Int) ≤ M := Int.natCast_nonneg M
  simp only [writeBlocks]
  rw [wrap32_of_range ⟨by omega, by omega⟩, wrap32_of_range ⟨by omega, by omega⟩,
    if_neg (by omega), fseek_neg (by omega)]
  simp [writeLoop]

/-- A block-aligned write at the stream's position replaces the block there. -/
theorem fwrite_block {buf : Mem} {d : Disk B M} {a b : Nat} (hpos : d.pos = a * B)
    (hb : b < M) :
    (d.fwrite buf).block b = if b = a then fun j : Fin B => buf j else d.block b := by
  funext j
  have hlt : b * B + j < d.size := block_lt_size hb j
  have hin : d.pos ≤ b * B + j ∧ b * B + j < d.pos + B ↔ b = a := by
    rw [hpos, ← Nat.succ_mul, le_mul_add_iff, mul_add_lt_iff]
    omega
  simp only [block, fwrite, hin, hlt, if_true]
  split
  · next h => subst h; rw [hpos, Nat.add_sub_cancel_left]
  · rfl

theorem readBlocks_eq (junk buf : Mem) {d : Disk B M} {a n : Nat} (hB : 0 < B)
    (hM : B * M < 2147483648) (h : a + n ≤ M) :
    d.readBlocks junk a n buf =
      ((n : Int), (readLoop junk n 0 buf (d.moveTo (a * B))).1,
        d.moveTo ((a + n) * B)) := by
  obtain ⟨hadd, hmul⟩ := wrap32_address hB hM h
  simp only [readBlocks, hadd, hmul, fseek_natCast, Int.toNat_natCast]
  rw [if_neg (by omega), readLoop_disk (by simpa using room h), moveTo_moveTo, pos_moveTo,
    Nat.add_mul]

/-- The buffer gets the contents of the blocks, and nothing past them. -/
theorem readBlocks_buffer {junk buf : Mem} {d : Disk B M} {a n k : Nat} (hB : 0 < B)
    (hM : B * M < 2147483648) (h : a + n ≤ M) :
    (d.readBlocks junk a n buf).2.1 k =
      if k < n * B then d.bytes (a * B + k) else buf k := by
  rw [readBlocks_eq _ _ hB hM h]
  simp only []
  rw [readLoop_buffer (by simpa using room h)]
  simp

/-! ## Single blocks -/

theorem writeBlock_block {buf : Mem} {d : Disk B M} {a b : Nat} (hB : 0 < B)
    (hM : B * M < 2147483648) (ha : a < M) (hb : b < M) :
    (d.writeBlocks a 1 buf).2.block b =
      if b = a then fun j : Fin B => buf j else d.block b := by
  have h := writeBlocks_block buf (d := d) (n := 1) hB hM ha hb
  rw [Nat.cast_one] at h
  rw [h]
  by_cases hba : b = a
  · subst hba; simp
  · rw [if_neg (by omega), if_neg hba]

theorem writeBlock_pos {buf : Mem} {d : Disk B M} {a : Nat} (hB : 0 < B)
    (hM : B * M < 2147483648) (ha : a < M) :
    (d.writeBlocks a 1 buf).2.pos = (a + 1) * B := by
  simpa only [Nat.cast_one] using writeBlocks_pos (n := 1) hB hM ha

/-- Reading a block delivers its contents and moves the stream. -/
theorem readBlock_eq {junk buf : Mem} {d : Disk B M} {a : Nat} (hB : 0 < B)
    (hM : B * M < 2147483648) (ha : a < M) :
    d.readBlocks junk a 1 buf =
      (1, memcpy buf 0 (fun k => d.bytes (a * B + k)) B, d.moveTo ((a + 1) * B)) := by
  have h := readBlocks_eq junk buf (d := d) (n := 1) hB hM ha
  have hbuf : (d.readBlocks junk a ((1 : Nat) : Int) buf).2.1 =
      memcpy buf 0 (fun k => d.bytes (a * B + k)) B := by
    funext k
    rw [readBlocks_buffer hB hM ha]
    simp [memcpy]
  rw [h] at hbuf
  rw [Nat.cast_one] at h
  rw [h]
  simp only [] at hbuf
  rw [hbuf]

end OsConcepts.Disk
