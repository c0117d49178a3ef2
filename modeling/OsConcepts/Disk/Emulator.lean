import OsConcepts.Lib.Bytes

/-!
# The disk emulator

`disk_emu.c` keeps a disk in an ordinary file: the bytes, their number, and one
stream position that every transfer moves. `BLOCK_SIZE` and `MAX_BLOCK` are set
when the disk is opened and never again, so they are parameters of the type
(`B` and `M`); the file is filled to `B * M` bytes when it is created and no
call shortens it, which the field `full` records.

What the host's stdio does is part of the model. A seek to a negative offset
fails and leaves the position where it was; a write goes to the position,
extends the file when it lies at or past the end (a gap reads as zeros), and
moves on; a read past the end delivers fewer bytes and leaves the rest of the
`malloc`ed block as it came. Whatever `malloc` hands out is the argument
`junk`. Opening the file is taken to succeed, and the latency pause is left
out.
-/

namespace OsConcepts

/-- The disk file and its stream. `writes` is the history of block writes,
latest first: where each went and what it wrote. -/
structure Disk (B M : Nat) where
  bytes : Mem
  size : Nat
  pos : Nat
  writes : List (Nat × Mem)
  full : B * M ≤ size

namespace Disk

variable {B M : Nat}

/-- `init_fresh_disk`: `B * M` zeros, the stream at their end. -/
def initFreshDisk (B M : Nat) : Disk B M where
  bytes := fun _ => 0
  size := B * M
  pos := B * M
  writes := []
  full := Nat.le_refl _

/-- `init_disk` on the file an earlier process left behind. -/
def initDisk (d : Disk B M) : Disk B M := { d with pos := 0 }

/-- `fseek(fp, offset, SEEK_SET)`. -/
def fseek (offset : Int) (d : Disk B M) : Disk B M :=
  if offset < 0 then d else { d with pos := offset.toNat }

/-- `fread(blockRead, BLOCK_SIZE, 1, fp)` into a fresh block. -/
def fread (junk : Mem) (d : Disk B M) : Mem × Disk B M :=
  (fun j => if d.pos + j < d.size then d.bytes (d.pos + j) else junk j,
    { d with pos := max d.pos (min (d.pos + B) d.size) })

/-- `fwrite(blockWrite, BLOCK_SIZE, 1, fp)`. -/
def fwrite (block : Mem) (d : Disk B M) : Disk B M where
  bytes k :=
    if d.pos ≤ k ∧ k < d.pos + B then block (k - d.pos)
    else if k < d.size then d.bytes k else 0
  size := max d.size (d.pos + B)
  pos := d.pos + B
  writes := (d.pos, block) :: d.writes
  full := Nat.le_trans d.full (Nat.le_max_left _ _)

/-- The loop of `read_blocks`: `n` more blocks, the next one being block `i` of
the buffer. -/
def readLoop (junk : Mem) : (n i : Nat) → Mem → Disk B M → Mem × Disk B M
  | 0, _, buffer, d => (buffer, d)
  | n + 1, i, buffer, d =>
      let (blockRead, d) := d.fread junk
      readLoop junk n (i + 1) (memcpy buffer (i * B) blockRead B) d

/-- `read_blocks`: the return value, the buffer and the disk afterwards. -/
def readBlocks (junk : Mem) (startAddress nblocks : Int) (buffer : Mem)
    (d : Disk B M) : Int × Mem × Disk B M :=
  if wrap32 (startAddress + nblocks) > M then (-1, buffer, d)
  else
    let d := d.fseek (wrap32 (startAddress * B))
    let (buffer, d) := readLoop junk nblocks.toNat 0 buffer d
    (nblocks.toNat, buffer, d)

/-- The loop of `write_blocks`. -/
def writeLoop (buffer : Mem) : (n i : Nat) → Disk B M → Disk B M
  | 0, _, d => d
  | n + 1, i, d => writeLoop buffer n (i + 1) (d.fwrite fun j => buffer (i * B + j))

/-- `write_blocks`: the return value and the disk afterwards. -/
def writeBlocks (startAddress nblocks : Int) (buffer : Mem) (d : Disk B M) :
    Int × Disk B M :=
  if wrap32 (startAddress + nblocks) > M then (-1, d)
  else
    let d := d.fseek (wrap32 (startAddress * B))
    (nblocks.toNat, writeLoop buffer nblocks.toNat 0 d)

end Disk

end OsConcepts
