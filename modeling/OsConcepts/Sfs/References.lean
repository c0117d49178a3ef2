import OsConcepts.Disk.Transfers
import OsConcepts.Lib.Ledger
import OsConcepts.Lib.FirstFit
import OsConcepts.Sfs.Api

/-!
# Block references

An i-node refers to blocks in three ways: by a direct pointer, by its indirect
pointer, and through the entries of the block the indirect pointer names, which
lives on the disk and not in a cache. `pointer` reads any of them, and the
`ledger` of a state is the library's view of it: a reference holds the block it
names, and a block is busy when the free list marks it occupied.
-/

namespace OsConcepts.Sfs

open OsConcepts

/-- The places of an i-node that can name a block. -/
inductive Ref where
  | direct (i : Fin 12)
  | indirect
  | entry (j : Fin 256)
  deriving DecidableEq

variable (s : Sfs)

/-- The contents of a block on disk, seen as block pointers. -/
def indirectBlockAt (b : Int) : IndirectBlock :=
  IndirectBlock.ofImage (Block.image (s.disk.block b.toNat))

/-- The number a reference of a file's i-node holds; the entries of an i-node
without indirect block are all -1. -/
def pointer (f : Fin 300) : Ref → Int
  | .direct i => (s.iNodes f).directPointers i
  | .indirect => (s.iNodes f).indirectPointer
  | .entry j =>
      if (s.iNodes f).indirectPointer = -1 then -1
      else s.indirectBlockAt (s.iNodes f).indirectPointer j

/-- The pointer for block `k` of a file; there is none past index 267. -/
def blockPointer (f : Fin 300) (k : Nat) : Int :=
  if h : k < 12 then s.pointer f (.direct ⟨k, h⟩)
  else if h : k - 12 < 256 then s.pointer f (.entry ⟨k - 12, h⟩)
  else -1

/-- The references as holders of blocks. -/
def ledger : Ledger (Fin 300 × Ref) (Fin 1024) where
  holds x b := s.pointer x.1 x.2 = (b : Nat)
  busy b := s.freeBlockListCache b = OccupiedBlock

/-- The blocks `mksfs` has taken: those of its own allocations and the free
list's. -/
def Reserved (b : Nat) : Prop := b < 18 ∨ b = 1023

/-- The blocks the root directory is written to. -/
def DirectoryBlock (b : Nat) : Prop := 301 ≤ b ∧ b ≤ 305

/-- The blocks the code saves metadata in: the super block, the i-node table,
the root directory and the free list. -/
def MetadataBlock (b : Nat) : Prop := b ≤ 12 ∨ DirectoryBlock b ∨ b = 1023

instance (b : Nat) : Decidable (Reserved b) := inferInstanceAs (Decidable (_ ∨ _))

instance (b : Nat) : Decidable (DirectoryBlock b) := inferInstanceAs (Decidable (_ ∧ _))

instance (b : Nat) : Decidable (MetadataBlock b) := inferInstanceAs (Decidable (_ ∨ _ ∨ _))

/-- No block is shared: every pointer is -1 or a block number below 1024, no
block has two references, and every referenced block is marked occupied. -/
structure NoSharing : Prop where
  range : ∀ f r, s.pointer f r = -1 ∨ (0 ≤ s.pointer f r ∧ s.pointer f r < 1024)
  sound : s.ledger.Sound

/-- The invariant of the allocator: no block is shared, the reserved blocks are
marked occupied, and no reference names one of them. -/
structure Owned : Prop extends NoSharing s where
  reserved : ∀ b : Fin 1024, Reserved b → s.ledger.busy b
  apart : ∀ f r (b : Fin 1024), s.pointer f r = (b : Nat) → ¬ Reserved b

/-- No reference names a block the directory is saved in either. -/
structure Isolated : Prop extends Owned s where
  directory : ∀ f r (b : Fin 1024), s.pointer f r = (b : Nat) → ¬ DirectoryBlock b

/-- A file has a block for every index its size reaches. -/
def Backed (f : Fin 300) : Prop :=
  0 ≤ (s.iNodes f).size ∧ (s.iNodes f).size ≤ 268 * 1024 ∧
    ∀ k : Nat, (k : Int) < numBlocksForFile (s.iNodes f).size → s.blockPointer f k ≠ -1

/-- The state the write path is written for: blocks are isolated, and every file
in use has the blocks its size says. -/
structure WellFormed : Prop extends Isolated s where
  backed : ∀ f, s.Live f → Backed s f

/-- Which cells of the free list are free, for the first-fit count. -/
def freeCell : Fin 1024 → Bool := fun i => s.freeBlockListCache i != 0

/-- The number of free blocks below `k`. -/
def freeBelow (k : Nat) : Nat := FirstFit.freeBelow s.freeCell k

end OsConcepts.Sfs
