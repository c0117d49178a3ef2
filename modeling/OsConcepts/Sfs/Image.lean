import OsConcepts.Sfs.State

/-!
# The structures as bytes

`write_blocks` and `read_blocks` see a structure as the bytes it occupies, with
4-byte integers and the usual layout: an i-node is 60 bytes, the table puts 16
bytes of name and padding before the first one, a directory entry is 35 bytes
with none in between, and the listing's location follows the last entry at
10500. Each type has an `image`, what a reader of its memory sees, and an
`ofImage`, what the fields are when its memory holds given bytes.

A transfer may be longer than the structure it starts at: the super block is
written as 1024 bytes though it has 88. What lies behind a structure is not
part of the model; the image reads zero there, and `ofImage` drops it.
-/

namespace OsConcepts.Sfs

open OsConcepts

/-! ## Blocks -/

def Block.image (b : Block) : Mem := fun k => if h : k < 1024 then b ⟨k, h⟩ else 0

def Block.ofImage (m : Mem) : Block := fun i => m i

def IndirectBlock.image (p : IndirectBlock) : Mem :=
  fun k => if h : k / 4 < 256 then intByte (p ⟨k / 4, h⟩) (k % 4) else 0

def IndirectBlock.ofImage (m : Mem) : IndirectBlock := fun j => memInt m (4 * j)

/-! ## The i-node table -/

/-- The fifteen integers of an i-node in the order they are stored. -/
def INode.field (n : INode) : Nat → Int
  | 0 => n.linkCount
  | 1 => n.size
  | i + 2 => if h : i < 12 then n.directPointers ⟨i, h⟩ else n.indirectPointer

def INode.image (n : INode) : Mem := fun k => intByte (n.field (k / 4)) (k % 4)

def INode.ofImage (m : Mem) : INode where
  linkCount := memInt m 0
  size := memInt m 4
  directPointers i := memInt m (8 + 4 * i)
  indirectPointer := memInt m 56

def INodesTable.image (t : INodesTable) : Mem := fun k =>
  if h : k < 16 then t.name ⟨k, h⟩
  else if h : (k - 16) / 60 < 300 then (t.iNodes ⟨_, h⟩).image ((k - 16) % 60)
  else 0

def INodesTable.ofImage (m : Mem) : INodesTable where
  name i := m i
  iNodes f := INode.ofImage fun k => m (16 + 60 * f + k)

theorem INodesTable.image_iNode (t : INodesTable) (f : Fin 300) {k : Nat} (hk : k < 60) :
    t.image (16 + 60 * f + k) = (t.iNodes f).image k := by
  have hf := f.isLt
  have hdiv : (16 + 60 * f.val + k - 16) / 60 = f := by omega
  have hmod : (16 + 60 * f.val + k - 16) % 60 = k := by omega
  unfold image
  rw [dif_neg (by omega), dif_pos (by omega), hmod]
  exact congrArg (fun f => (t.iNodes f).image k) (Fin.ext hdiv)

/-! ## The root directory -/

def RootDirectory.image (d : RootDirectory) : Mem := fun k =>
  if h : k / 35 < 300 then
    d.directoryEntries ⟨_, h⟩ ⟨k % 35, Nat.mod_lt _ (by omega)⟩
  else if k < 10504 then intByte d.location (k - 10500)
  else 0

def RootDirectory.ofImage (m : Mem) : RootDirectory where
  directoryEntries f i := m (35 * f + i)
  location := memInt m 10500

theorem RootDirectory.image_entry (d : RootDirectory) (f : Fin 300) (i : Fin 35) :
    d.image (35 * f + i) = d.directoryEntries f i := by
  have hf := f.isLt
  have hi := i.isLt
  have hdiv : (35 * f.val + i.val) / 35 = f := by omega
  have hmod : (35 * f.val + i.val) % 35 = i := by omega
  unfold RootDirectory.image
  rw [dif_pos (by omega)]
  rw [show (⟨(35 * f.val + i.val) / 35, by omega⟩ : Fin 300) = f from Fin.ext hdiv]
  exact congrArg _ (Fin.ext hmod)

/-! ## The super block -/

def SuperBlock.image (b : SuperBlock) : Mem := fun k =>
  if h : k < 12 then b.name ⟨k, h⟩
  else if k < 16 then intByte b.magic (k - 12)
  else if k < 20 then intByte b.blockSize (k - 16)
  else if k < 24 then intByte b.fileSystemSize (k - 20)
  else if k < 28 then intByte b.iNodeTableLength (k - 24)
  else if k < 88 then b.rootDirectory.image (k - 28)
  else 0

def SuperBlock.ofImage (m : Mem) : SuperBlock where
  name i := m i
  magic := memInt m 12
  blockSize := memInt m 16
  fileSystemSize := memInt m 20
  iNodeTableLength := memInt m 24
  rootDirectory := INode.ofImage fun k => m (28 + k)

end OsConcepts.Sfs
