import OsConcepts.Disk.Replay
import OsConcepts.Sfs.References

/-!
# The tables as the disk holds them

What a disk says about its blocks, with no process running: the i-nodes saved in
blocks 1 to 12, the free list in block 1023, and the indirect blocks those
i-nodes name. The table is longer than its twelve blocks: they end after the
sixth direct pointer of slot 204. What lies past them is not stored and names no
block, so it reads as ones here.
-/

namespace OsConcepts.Sfs

open OsConcepts

/-- The i-node table in blocks 1 to 12. -/
def storedTable (d : Disk 1024 2000) : Mem :=
  fun k => if k < 12 * 1024 then d.bytes (1024 + k) else 255

/-- The tables on a disk. -/
def stored (d : Disk 1024 2000) : Sfs :=
  { zeroed d with
    iNodesTableCache := .ofImage (storedTable d)
    freeBlockListCache := d.block 1023 }

/-- No stored i-node refers to a block that the stored free list marks free,
directly, by its indirect pointer or through the indirect block. -/
def NoDangling (d : Disk 1024 2000) : Prop :=
  ∀ f r (b : Fin 1024), (stored d).pointer f r = (b : Nat) → (stored d).ledger.busy b

end OsConcepts.Sfs
