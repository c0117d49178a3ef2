import Mathlib.Algebra.GroupWithZero.Nat
import OsConcepts.Disk.Emulator

/-!
# The state of the simple file system

The five caches of `sfs_api.c` and the disk under them. An array of the source
is a function from the `Fin` type of its indices, so an index that is out of
range cannot be written down; where the source computes an index, the model
checks it and a failed check is a `Fault`.

The header's macros appear as their values:

* `DISK_BLOCK_SIZE` 1024, `DISK_DATA_BLOCKS` 2000, `TOTAL_FILES` 300,
* `DIRECT_POINTERS` 12, `INDIRECT_POINTERS` 256, `MAX_FILENAME_LENGTH` 35,
* `SuperBlockIndex` 0, `iNodeTableIndex` 1, `RootDirectoryIndex` 301,
  `FreeBlockListIndex` 1023, `TOTAL_ROOT_DIRECTORY_BLOCKS` 6,
* `INITIALIZATION_VALUE`, `FDT_INITIALIZER_VALUE` and every error code -1,
  `NoError` and `START_INDEX` 0.
-/

namespace OsConcepts.Sfs

open OsConcepts

/-- The arrays have an element 0: the files, the direct pointers, a file name. -/
instance neZero_files : NeZero 300 := ⟨by decide⟩

instance neZero_directPointers : NeZero 12 := ⟨by decide⟩

instance neZero_filename : NeZero 35 := ⟨by decide⟩

/-- `BlockUtilizationState`. -/
abbrev FreeBlock : Byte := 1

abbrev OccupiedBlock : Byte := 0

/-- A block of the disk. -/
abbrev Block := Fin 1024 → Byte

/-- `IndirectBlock`: the `blockOfPointers` array. -/
abbrev IndirectBlock := Fin 256 → Int

/-- `iNode`. -/
structure INode where
  linkCount : Int
  size : Int
  directPointers : Fin 12 → Int
  indirectPointer : Int

/-- `SuperBlock`. -/
structure SuperBlock where
  name : Fin 12 → Byte
  magic : Int
  blockSize : Int
  fileSystemSize : Int
  iNodeTableLength : Int
  rootDirectory : INode

/-- `iNodesTable`: a 13-byte name, three bytes of padding, the i-nodes. -/
structure INodesTable where
  name : Fin 16 → Byte
  iNodes : Fin 300 → INode

/-- The root directory: the file names, and the location of the listing. -/
structure RootDirectory where
  directoryEntries : Fin 300 → Fin 35 → Byte
  location : Int

end Sfs

/-- The global variables of `sfs_api.c` and the disk. -/
structure Sfs where
  disk : Disk 1024 2000
  superBlockCache : Sfs.SuperBlock
  iNodesTableCache : Sfs.INodesTable
  freeBlockListCache : Sfs.Block
  openFDTCache : Fin 300 → Int
  rootDirectoryCache : Sfs.RootDirectory

namespace Sfs

/-- What the C standard leaves undefined and a run of the program does not come
back from. -/
inductive Fault where
  /-- A file table is indexed outside `0..299`. -/
  | tableIndex
  /-- The free list is indexed outside `0..1023`. -/
  | freeListIndex
  /-- A copy leaves the buffer it works on. -/
  | bufferOverrun
  deriving DecidableEq, Repr

/-- The slot a descriptor designates, if it is one. -/
def slot? (fd : Int) : Option (Fin 300) :=
  if h : 0 ≤ fd ∧ fd < 300 then some ⟨fd.toNat, by omega⟩ else none

theorem slot?_natCast (f : Fin 300) : slot? (f : Nat) = some f := by
  have hf := f.isLt
  simp only [slot?]
  rw [dif_pos (by omega)]
  simp

theorem slot?_eq_some {fd : Int} {f : Fin 300} :
    slot? fd = some f ↔ fd = (f : Nat) := by
  constructor
  · intro h
    simp only [slot?] at h
    split at h
    · injection h with h
      subst h
      simp only
      omega
    · cases h
  · rintro rfl
    exact slot?_natCast f

theorem slot?_eq_none {fd : Int} : slot? fd = none ↔ fd < 0 ∨ 300 ≤ fd := by
  simp only [slot?]
  split <;> simp <;> omega

/-- The globals of a process that has just started, over the disk it finds. -/
def zeroed (disk : Disk 1024 2000) : Sfs where
  disk := disk
  superBlockCache := ⟨fun _ => 0, 0, 0, 0, 0, ⟨0, 0, fun _ => 0, 0⟩⟩
  iNodesTableCache := ⟨fun _ => 0, fun _ => ⟨0, 0, fun _ => 0, 0⟩⟩
  freeBlockListCache := fun _ => 0
  openFDTCache := fun _ => 0
  rootDirectoryCache := ⟨fun _ _ => 0, 0⟩

/-! ## Field updates -/

variable (s : Sfs)

/-- The i-node of a slot. -/
def iNodes (f : Fin 300) : INode := s.iNodesTableCache.iNodes f

def setINode (f : Fin 300) (n : INode) : Sfs :=
  { s with iNodesTableCache :=
      { s.iNodesTableCache with
        iNodes := Function.update s.iNodesTableCache.iNodes f n } }

def setReadWritePointer (f : Fin 300) (p : Int) : Sfs :=
  { s with openFDTCache := Function.update s.openFDTCache f p }

def setFilename (f : Fin 300) (name : Fin 35 → Byte) : Sfs :=
  { s with rootDirectoryCache :=
      { s.rootDirectoryCache with
        directoryEntries :=
          Function.update s.rootDirectoryCache.directoryEntries f name } }

/-- Where the listing of the directory stands. -/
def setLocation (l : Int) : Sfs :=
  { s with rootDirectoryCache := { s.rootDirectoryCache with location := l } }

def INode.setDirectPointer (n : INode) (i : Fin 12) (b : Int) : INode :=
  { n with directPointers := Function.update n.directPointers i b }

/-- The name in a slot of the directory. -/
def filename (f : Fin 300) : Fin 35 → Byte := s.rootDirectoryCache.directoryEntries f

/-- A slot is in use when its name is not empty. -/
def Live (f : Fin 300) : Prop := s.filename f 0 ≠ 0

instance (f : Fin 300) : Decidable (s.Live f) := inferInstanceAs (Decidable (_ ≠ _))

end OsConcepts.Sfs
