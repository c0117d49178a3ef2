import OsConcepts.Disk.Transfers
import OsConcepts.Lib.System

/-!
# Requests to a disk

Runs of a disk after `init_fresh_disk`: any sequence of `read_blocks` and
`write_blocks`, with any `int` for an address and any number of blocks. What a
block is meant to hold is told from the history alone (`lastWritten`), and
`Placed` are the requests the emulator carries out where they belong.

A buffer is addressed by `i * BLOCK_SIZE`, an `int` like the others. The first
of these to wrap is negative and the copy leaves the buffer; the request does
not come back from that.
-/

namespace OsConcepts.Disk

open OsConcepts

/-- The arguments of a request. -/
structure Request where
  startAddress : Int
  nblocks : Nat
  buffer : Mem
  address_range : Int32Range startAddress
  nblocks_range : Int32Range nblocks

/-- `read_blocks`, with the memory `malloc` hands it, or `write_blocks`. -/
inductive Op where
  | read (junk : Mem) (r : Request)
  | write (r : Request)

/-- The arguments of a call. -/
def Op.request : Op → Request
  | .read _ r => r
  | .write r => r

variable {B M : Nat}

/-- The check of both calls does not refuse the request. -/
def Admits (M : Nat) (r : Request) : Prop := wrap32 (r.startAddress + r.nblocks) ≤ M

instance (r : Request) : Decidable (Admits M r) := inferInstanceAs (Decidable (_ ≤ _))

/-- `i * BLOCK_SIZE` is an `int` for every block of the request. -/
def Addressable (B : Nat) (r : Request) : Prop := ∀ i < r.nblocks, i * B < 2147483648

/-- Only the last offset has to be looked at. -/
theorem addressable_iff {r : Request} :
    Addressable B r ↔ r.nblocks = 0 ∨ (r.nblocks - 1) * B < 2147483648 := by
  constructor
  · intro h
    by_cases hn : r.nblocks = 0
    · exact Or.inl hn
    · exact Or.inr (h _ (by omega))
  · rintro (hn | hlast) i hi
    · omega
    · exact Nat.lt_of_le_of_lt (Nat.mul_le_mul_right B (by omega)) hlast

instance (r : Request) : Decidable (Addressable B r) := decidable_of_iff' _ addressable_iff

/-- What a call returns, the buffer and the disk it leaves; `none` if a copy
leaves the buffer. -/
def Op.exec (op : Op) (d : Disk B M) : Option (Int × Mem × Disk B M) :=
  if Admits M op.request ∧ ¬ Addressable B op.request then none
  else
    match op with
    | .read junk r => some (d.readBlocks junk r.startAddress r.nblocks r.buffer)
    | .write r =>
        let (ret, d) := d.writeBlocks r.startAddress r.nblocks r.buffer
        some (ret, r.buffer, d)

/-- Calls that come back, labelled with what they return. -/
def requests (B M : Nat) : System (Disk B M) (Op × Int) where
  init d := d = initFreshDisk B M
  step d a d' := ∃ buffer, a.1.exec d = some (a.2, buffer, d')

/-- The contents last written to a block, zeros if there are none: the piece for
it of the latest write that was not refused and has it in its range. -/
def lastWritten (B : Nat) : List (Op × Int) → Nat → Fin B → Byte
  | [], _ => fun _ => 0
  | (.read _ _, _) :: tr, b => lastWritten B tr b
  | (.write r, ret) :: tr, b =>
      if ret ≠ -1 ∧ r.startAddress ≤ b ∧ (b : Int) < r.startAddress + r.nblocks then
        fun j => r.buffer ((b - r.startAddress).toNat * B + j)
      else lastWritten B tr b

/-- The blocks of a request are on the disk. -/
def Within (M : Nat) (r : Request) : Prop := 0 ≤ r.startAddress ∧ r.startAddress + r.nblocks ≤ M

/-- The contents of block `b` once a call has been carried out. -/
def Op.blockAfter (d : Disk B M) : Op → Nat → Fin B → Byte
  | .read _ _, b => d.block b
  | .write r, b =>
      if r.startAddress ≤ b ∧ (b : Int) < r.startAddress + r.nblocks then
        fun j => r.buffer ((b - r.startAddress).toNat * B + j)
      else d.block b

/-- Byte `k` of the buffer once a call has been carried out with `tr` behind it:
a read delivers what was last written. -/
def Op.byteAfter (B : Nat) (tr : List (Op × Int)) : Op → Nat → Byte
  | .read _ r, k =>
      if h : k < r.nblocks * B then
        lastWritten B tr (r.startAddress.toNat + k / B)
          ⟨k % B, Nat.mod_lt k (Nat.pos_of_mul_pos_left (Nat.lt_of_le_of_lt (Nat.zero_le k) h))⟩
      else r.buffer k
  | .write r, k => r.buffer k

/-- What a call is to do: refuse and change nothing, or return the number of
blocks, all of them on the disk, with just these replaced or delivered. -/
structure InPlace (tr : List (Op × Int)) (op : Op) (d : Disk B M) (ret : Int) (buffer : Mem)
    (d' : Disk B M) : Prop where
  answered : ret = -1 ∧ d' = d ∧ buffer = op.request.buffer ∨
    ret = op.request.nblocks ∧ Within M op.request
  blocks : ret ≠ -1 → ∀ b < M, d'.block b = op.blockAfter d b
  delivered : ret ≠ -1 → ∀ k, buffer k = op.byteAfter B tr k

/-- The stream ends up at the start of the request: its offset is an `int`, or
the offset wraps to a negative one and the stream stands there already. -/
def Lands (r : Request) (d : Disk B M) : Prop :=
  r.startAddress * B < 2147483648 ∨
    wrap32 (r.startAddress * B) < 0 ∧ (d.pos : Int) = r.startAddress * B

/-- The request is refused, or its blocks are on the disk, its buffer can be
addressed, and its seek lands. -/
def Placed (d : Disk B M) (op : Op) : Prop :=
  ¬ Admits M op.request ∨
    Within M op.request ∧ Addressable B op.request ∧ (op.request.nblocks = 0 ∨ Lands op.request d)

end OsConcepts.Disk
