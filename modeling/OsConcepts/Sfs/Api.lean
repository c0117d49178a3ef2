import Mathlib.Data.Fin.Basic
import OsConcepts.Sfs.Image

/-!
# The file system calls

`sfs_api.c`, function by function. A call takes the state and gives back its
return value and the state it leaves, or a `Fault` where the program would not
come back. A `while` loop that stops at the first index with a property is
`Fin.find?`; the loops with work in their bodies (`readLoop`, `writeLoop`) count
down the blocks still to do and carry the block index the source counts up.

The argument `junk` of a call is the memory `malloc` and the stack hand it,
whose contents C leaves open.
-/

namespace OsConcepts.Sfs

open OsConcepts

/-! ## The disk as the calls see it -/

/-- `write_blocks`, its return value unused. -/
def writeBlocks (startAddress nblocks : Int) (buffer : Mem) (s : Sfs) : Sfs :=
  { s with disk := (s.disk.writeBlocks startAddress nblocks buffer).2 }

/-- `read_blocks` into a buffer, its return value unused. -/
def readBlocks (junk : Mem) (startAddress nblocks : Int) (buffer : Mem) (s : Sfs) :
    Mem × Sfs :=
  let (_, buffer, disk) := s.disk.readBlocks junk startAddress nblocks buffer
  (buffer, { s with disk := disk })

/-- The i-node table goes to disk as its first twelve blocks. -/
def writeINodeTable (s : Sfs) : Sfs := s.writeBlocks 1 12 s.iNodesTableCache.image

/-- The root directory goes to disk as its first `n` blocks. -/
def writeRootDirectory (n : Int) (s : Sfs) : Sfs :=
  s.writeBlocks 301 n s.rootDirectoryCache.image

def writeFreeBlockList (s : Sfs) : Sfs := s.writeBlocks 1023 1 s.freeBlockListCache.image

/-- `allocateBlock`: the first free block, marked occupied, or -1. -/
@[irreducible] def allocateBlock (s : Sfs) : Int × Sfs :=
  match Fin.find? fun i => s.freeBlockListCache i != 0 with
  | some i =>
      ((i : Nat), writeFreeBlockList
        { s with freeBlockListCache :=
            Function.update s.freeBlockListCache i OccupiedBlock })
  | none => (-1, s)

/-! ## `mksfs` -/

/-- The name of the i-node table as `strcpy` leaves it; the padding behind the
terminator is not touched. -/
def tableName (old : Fin 16 → Byte) : Fin 16 → Byte := fun i =>
  if i.val < 13 then
    [105, 45, 78, 111, 100, 101, 32, 84, 97, 98, 108, 101, 0].getD i.val 0
  else old i

/-- `"Super Block"` and its terminator. -/
def superBlockName : Fin 12 → Byte := fun i =>
  [83, 117, 112, 101, 114, 32, 66, 108, 111, 99, 107, 0].getD i.val 0

/-- An i-node no file uses. -/
def INode.unused : INode where
  linkCount := -1
  size := -1
  directPointers := fun _ => -1
  indirectPointer := -1

/-- `n` calls of `allocateBlock` whose results go nowhere. -/
def allocateBlocks : Nat → Sfs → Sfs
  | 0, s => s
  | n + 1, s => allocateBlocks n s.allocateBlock.2

/-- A block for one direct pointer of an i-node. -/
def allocateDirectPointer (x : INode × Sfs) (i : Fin 12) : INode × Sfs :=
  let (b, s) := allocateBlock x.2
  (x.1.setDirectPointer i b, s)

/-- The blocks of the root directory's i-node, allocated in order. -/
def allocateDirectPointers (n : INode) (s : Sfs) : INode × Sfs :=
  (List.finRange 12).foldl allocateDirectPointer (n, s)

/-- The free list before anything is allocated: its own block is taken. -/
def initialFreeList : Block := fun i => if i.val = 1023 then OccupiedBlock else FreeBlock

/-- A new disk and its free list, saved. -/
def initFreeBlockList (s : Sfs) : Sfs :=
  writeFreeBlockList { s with
    disk := Disk.initFreshDisk 1024 2000
    freeBlockListCache := initialFreeList }

/-- The super block, with blocks for the root directory's own i-node. -/
def initSuperBlock (junk : Mem) (s : Sfs) : Sfs :=
  let allocated := allocateDirectPointers (INode.ofImage junk) s
  let superBlock : SuperBlock :=
    { name := superBlockName
      magic := wrap32 0xACBD0005
      blockSize := 1024
      fileSystemSize := 2000
      iNodeTableLength := 12
      rootDirectory := { allocated.1 with size := -1, indirectPointer := -1 } }
  writeBlocks 0 1 superBlock.image { allocated.2 with superBlockCache := superBlock }

/-- Every name is made empty by its first byte. -/
def clearFilenames (s : Sfs) : Sfs :=
  { s with rootDirectoryCache :=
    { s.rootDirectoryCache with
      directoryEntries := fun f =>
        Function.update (s.rootDirectoryCache.directoryEntries f) 0 0 } }

/-- The root directory, with six blocks allocated for it. -/
def initRootDirectory (s : Sfs) : Sfs :=
  writeRootDirectory 5 (setLocation (allocateBlocks 6 (clearFilenames s)) 0)

/-- The i-node table. -/
def initINodeTable (s : Sfs) : Sfs :=
  writeINodeTable { s with iNodesTableCache :=
    { name := tableName s.iNodesTableCache.name
      iNodes := fun _ => INode.unused } }

/-- `mksfs(fresh)` with `fresh` set: a new disk, formatted. -/
def formatDisk (junk : Mem) (s : Sfs) : Sfs :=
  initINodeTable (initRootDirectory (initSuperBlock junk (initFreeBlockList s)))

/-- The super block is read from the disk. The read goes into the memory of its
cache, as do the next three. -/
def loadSuperBlock (junk : Mem) (s : Sfs) : Sfs :=
  let (m, s) := s.readBlocks junk 0 1 s.superBlockCache.image
  { s with superBlockCache := .ofImage m }

def loadINodeTable (junk : Mem) (s : Sfs) : Sfs :=
  let (m, s) := s.readBlocks junk 1 12 s.iNodesTableCache.image
  { s with iNodesTableCache := .ofImage m }

def loadRootDirectory (junk : Mem) (s : Sfs) : Sfs :=
  let (m, s) := s.readBlocks junk 301 5 s.rootDirectoryCache.image
  { s with rootDirectoryCache := .ofImage m }

def loadFreeBlockList (junk : Mem) (s : Sfs) : Sfs :=
  let (m, s) := s.readBlocks junk 1023 1 s.freeBlockListCache.image
  { s with freeBlockListCache := .ofImage m }

/-- `mksfs(fresh)` with `fresh` clear: the caches are read from the disk. Bytes
of a cache past the end of its transfer stay. -/
def mountDisk (junk : Mem) (s : Sfs) : Sfs :=
  loadFreeBlockList junk (loadRootDirectory junk (loadINodeTable junk (loadSuperBlock junk
    { s with disk := s.disk.initDisk })))

/-- `mksfs`. -/
def mksfs (fresh : Int) (junk : Mem) (s : Sfs) : Sfs :=
  let s := if fresh ≠ 0 then formatDisk junk s else mountDisk junk s
  { s with openFDTCache := fun _ => -1 }

/-! ## Names and descriptors -/

/-- `lenName < 1 || lenName > MAX_FILENAME_LENGTH`. -/
def badLength (len : Int) : Bool := len < 1 || len > 35

/-- `sfs_getnextfilename`: the return value and the caller's buffer. -/
def sfsGetnextfilename (fname : Mem) (s : Sfs) : Int × Mem × Sfs :=
  if badLength (intStrlen fname) then (-1, fname, s)
  else
    match Fin.find? fun f => s.filename f 0 != 0 with
    | some f =>
        let s := (s.setLocation ((f : Nat) + 1)).writeRootDirectory 4
        let name := fun k => s.rootDirectoryCache.image (35 * f + k)
        ((f : Nat), memcpy fname 0 (strncpy name 35) 35, s)
    | none => (0, fname, (s.setLocation 0).writeRootDirectory 5)

/-- The first slot whose name compares equal. The comparison runs over the
directory as one array, so it goes on into the next slot where a name fills its
field. -/
def findName (fname : CString) (s : Sfs) : Option (Fin 300) :=
  Fin.find? fun f => strcmpEq s.rootDirectoryCache.image (35 * f) fname.bytes

/-- The first slot with an empty name. -/
def findEmpty (s : Sfs) : Option (Fin 300) := Fin.find? fun f => s.filename f 0 == 0

/-- `sfs_getfilesize`. -/
def sfsGetfilesize (path : CString) (s : Sfs) : Int :=
  if badLength (wrap32 path.length) then -1
  else
    match findName path s with
    | some f => (s.iNodes f).size
    | none => -1

/-- `sfs_fopen`. -/
def sfsFopen (fname : CString) (s : Sfs) : Int × Sfs :=
  if badLength (wrap32 fname.length) then (-1, s)
  else
    match findName fname s with
    | some fd => ((fd : Nat), s.setReadWritePointer fd (s.iNodes fd).size)
    | none =>
        match findEmpty s with
        | some fd =>
            let s := s.setReadWritePointer fd 0
            let s := s.setINode fd { s.iNodes fd with size := 0 }
            let s := s.setFilename fd fun i => strncpy fname.image 35 i
            let s := s.writeINodeTable
            ((fd : Nat), s.writeRootDirectory 5)
        | none => (-1, s)

/-- `sfs_fclose`. -/
def sfsFclose (fd : Int) (s : Sfs) : Int × Sfs :=
  match slot? fd with
  | none => (-1, s)
  | some f =>
      if s.openFDTCache f < 0 then (-1, s)
      else (0, s.setReadWritePointer f (-1))

/-- `sfs_fseek`. The location is checked against the file's size before the
descriptor is checked at all. -/
def sfsFseek (fd location : Int) (s : Sfs) : Except Fault (Int × Sfs) :=
  if location < 0 then .ok (-1, s)
  else
    match slot? fd with
    | none => .error .tableIndex
    | some f =>
        if location > (s.iNodes f).size then .ok (-1, s)
        else if s.openFDTCache f < 0 then .ok (-1, s)
        else .ok (0, s.setReadWritePointer f location)

/-! ## Reading -/

/-- `(fileSize / DISK_BLOCK_SIZE) + ((fileSize % DISK_BLOCK_SIZE) != 0)`. -/
def numBlocksForFile (fileSize : Int) : Int :=
  fileSize.tdiv 1024 + if fileSize.tmod 1024 ≠ 0 then 1 else 0

/-- What the loop of `sfs_fread` works on. -/
structure ReadState where
  fileDataBuffer : Mem
  blockBuffer : Mem
  indirectBlock : Option IndirectBlock
  disk : Disk 1024 2000

/-- Lines 290-300: block `blockIndex` of the file, found at `blockNumber`. -/
def readBlock (junk : Mem) (blockIndex : Nat) (blockNumber : Int) (r : ReadState) :
    ReadState × Bool :=
  if blockNumber < 0 then (r, false)
  else
    let (_, blockBuffer, disk) := r.disk.readBlocks junk blockNumber 1 r.blockBuffer
    ({ r with
        blockBuffer := blockBuffer
        fileDataBuffer := memcpy r.fileDataBuffer (blockIndex * 1024) blockBuffer 1024
        disk := disk }, true)

/-- The indirect block, loaded on first use. -/
def loadIndirect (junk : Mem) (node : INode) (r : ReadState) : IndirectBlock × ReadState :=
  match r.indirectBlock with
  | some indirectBlock => (indirectBlock, r)
  | none =>
      let (_, tempBuffer, disk) := r.disk.readBlocks junk node.indirectPointer 1 junk
      let indirectBlock := IndirectBlock.ofImage tempBuffer
      (indirectBlock, { r with indirectBlock := some indirectBlock, disk := disk })

/-- One turn of the loop of `sfs_fread`; `false` is its error exit. -/
def readStep (junk : Mem) (node : INode) (blockIndex : Nat) (r : ReadState) :
    ReadState × Bool :=
  if h : blockIndex < 12 then
    readBlock junk blockIndex (node.directPointers ⟨blockIndex, h⟩) r
  else
    let (indirectBlock, r) := loadIndirect junk node r
    if h : blockIndex - 12 < 256 then
      readBlock junk blockIndex (indirectBlock ⟨blockIndex - 12, h⟩) r
    else (r, false)

/-- The loop of `sfs_fread`: `n` blocks to go, `blockIndex` the next. -/
def readLoop (junk : Mem) (node : INode) : (n blockIndex : Nat) → ReadState →
    ReadState × Bool
  | 0, _, r => (r, true)
  | n + 1, blockIndex, r =>
      match readStep junk node blockIndex r with
      | (r, true) => readLoop junk node n (blockIndex + 1) r
      | (r, false) => (r, false)

/-- `sfs_fread`: the return value and the bytes delivered. -/
def sfsFread (junk : Mem) (fd count : Int) (s : Sfs) :
    Except Fault (Int × List Byte × Sfs) :=
  if count < 0 then .ok (-1, [], s)
  else
    match slot? fd with
    | none => .ok (-1, [], s)
    | some f =>
        let rwPointer := s.openFDTCache f
        if rwPointer < 0 then .ok (-1, [], s)
        else
          let fileSize := (s.iNodes f).size
          let bytesToRead :=
            if fileSize < wrap32 (rwPointer + count) then wrap32 (fileSize - rwPointer)
            else count
          let blocks := numBlocksForFile fileSize
          let capacity := wrap32 (blocks * 1024)
          -- `malloc` of a negative size gives NULL, and `memset` writes to it.
          if capacity < 0 then .error .bufferOverrun
          else
            match readLoop junk (s.iNodes f) blocks.toNat 0
                ⟨fun _ => 0, fun _ => 0, none, s.disk⟩ with
            | (r, false) => .ok (-1, [], { s with disk := r.disk })
            | (r, true) =>
                if bytesToRead < 0 ∨ rwPointer + bytesToRead > capacity then
                  .error .bufferOverrun
                else
                  .ok (bytesToRead,
                    r.fileDataBuffer.slice rwPointer.toNat bytesToRead.toNat,
                    { s with disk := r.disk }.setReadWritePointer f
                      (wrap32 (rwPointer + bytesToRead)))

/-! ## Writing -/

/-- What the loop of `sfs_fwrite` keeps in local variables: the copy of the
i-node it took on entry, and the indirect block once it has loaded it. -/
structure WriteLocals where
  iNodeOfFile : INode
  indirectBlock : Option IndirectBlock

/-- Lines 373-383: the file gets an indirect block and a first block in it. -/
def createIndirect (f : Fin 300) (l : WriteLocals) (s : Sfs) : Int × WriteLocals × Sfs :=
  let (indirectBlockAddressPointer, s) := s.allocateBlock
  let l := { l with iNodeOfFile :=
    { l.iNodeOfFile with indirectPointer := indirectBlockAddressPointer } }
  let s := s.setINode f
    { s.iNodes f with indirectPointer := indirectBlockAddressPointer }
  let (blockIndexInFreeBlockList, s) := s.allocateBlock
  let indirect : IndirectBlock :=
    Function.update (fun _ => -1) 0 blockIndexInFreeBlockList
  (blockIndexInFreeBlockList, l,
    s.writeBlocks indirectBlockAddressPointer 1 (IndirectBlock.image indirect))

/-- The indirect block of a file that has one, loaded on first use. -/
def loadIndirectForWrite (junk : Mem) (l : WriteLocals) (s : Sfs) :
    IndirectBlock × WriteLocals × Sfs :=
  match l.indirectBlock with
  | some indirectBlock => (indirectBlock, l, s)
  | none =>
      let (tempBuffer, s) := s.readBlocks junk l.iNodeOfFile.indirectPointer 1 junk
      let indirectBlock := IndirectBlock.ofImage tempBuffer
      (indirectBlock, { l with indirectBlock := some indirectBlock }, s)

/-- Lines 366-403: the block that takes block `blockIndex` of the file, one
newly allocated where the file has none; -1 stands for the allocation that
failed. `none` is the exit for a file past its last indirect pointer. -/
def chooseBlock (junk : Mem) (f : Fin 300) (blockIndex : Nat) (l : WriteLocals)
    (s : Sfs) : Option Int × WriteLocals × Sfs :=
  if h : blockIndex < 12 then
    let block := l.iNodeOfFile.directPointers ⟨blockIndex, h⟩
    if block < 0 then
      let (block, s) := s.allocateBlock
      (some block, l,
        s.setINode f ((s.iNodes f).setDirectPointer ⟨blockIndex, h⟩ block))
    else (some block, l, s)
  else if l.iNodeOfFile.indirectPointer < 0 then
    let (block, l, s) := createIndirect f l s
    (some block, l, s)
  else
    let (indirectBlock, l, s) := loadIndirectForWrite junk l s
    if h : blockIndex - 12 < 256 then
      let block := indirectBlock ⟨blockIndex - 12, h⟩
      if block < 0 then
        let (block, s) := s.allocateBlock
        let indirectBlock := Function.update indirectBlock ⟨blockIndex - 12, h⟩ block
        (some block, { l with indirectBlock := some indirectBlock },
          s.writeBlocks l.iNodeOfFile.indirectPointer 1
            (IndirectBlock.image indirectBlock))
      else (some block, l, s)
    else (none, l, s)

/-- The loop of `sfs_fwrite`: `n` blocks to go, `blockIndex` the next, of a
buffer of `capacity` bytes. The flag is `false` for its error exits. -/
def writeLoop (junk : Mem) (f : Fin 300) (fileDataBuffer : Mem) (capacity : Int) :
    (n blockIndex : Nat) → WriteLocals → Sfs → Except Fault (Bool × Sfs)
  | 0, _, _, s => .ok (true, s)
  | n + 1, blockIndex, l, s =>
      match chooseBlock junk f blockIndex l s with
      | (none, _, s) => .ok (false, s)
      | (some block, l, s) =>
          if block < 0 ∨ block ≥ 2000 then .ok (false, s)
          else if (blockIndex + 1) * 1024 > capacity then .error .bufferOverrun
          else
            writeLoop junk f fileDataBuffer capacity n (blockIndex + 1) l
              (s.writeBlocks block 1 fun k => fileDataBuffer (blockIndex * 1024 + k))

/-- Lines 350-354: the buffer holds the file as it is, then `buf` in its place.
A buffer of `capacity` bytes; a negative one is the NULL that `malloc` gives
for it. -/
def loadFileData (junk : Mem) (f : Fin 300) (buf : Mem) (count capacity : Int)
    (s : Sfs) : Except Fault (Mem × Sfs) := do
  let rwPointer := s.openFDTCache f
  let (_, s) ← sfsFseek (f : Nat) 0 s
  let (_, bytes, s) ← sfsFread junk (f : Nat) (s.iNodes f).size s
  if (bytes.length : Int) > max capacity 0 then throw .bufferOverrun
  let fileDataBuffer := memcpy junk 0 (Mem.ofList bytes) bytes.length
  let (_, s) ← sfsFseek (f : Nat) (s.openFDTCache f) s
  if count > 0 ∧ rwPointer + count > capacity then throw .bufferOverrun
  return (memcpy fileDataBuffer rwPointer.toNat buf count.toNat, s)

/-- `sfs_fwrite`. -/
def sfsFwrite (junk : Mem) (fd : Int) (buf : Mem) (count : Int) (s : Sfs) :
    Except Fault (Int × Sfs) :=
  if count < 0 then .ok (-1, s)
  else
    match slot? fd with
    | none => .ok (-1, s)
    | some f =>
        if s.openFDTCache f < 0 then .ok (-1, s)
        else if strnlen buf 2048001 0 > 2048000 then .ok (-1, s)
        else do
          let iNodeOfFile := s.iNodes f
          let newSize := wrap32 (s.openFDTCache f + count)
          let fileSize := if newSize > iNodeOfFile.size then newSize else iNodeOfFile.size
          let blocks := numBlocksForFile fileSize
          let capacity := wrap32 (blocks * 1024)
          let (fileDataBuffer, s) ← loadFileData junk f buf count capacity s
          let (done, s) ←
            writeLoop junk f fileDataBuffer capacity blocks.toNat 0 ⟨iNodeOfFile, none⟩ s
          if done then
            let s := s.setReadWritePointer f fileSize
            let s := s.setINode f { s.iNodes f with size := fileSize }
            return (count, s.writeINodeTable)
          else return (-1, s)

/-! ## Removing -/

/-- `if (blockIndex != -1) freeBlockListCache.data[blockIndex] = FreeBlock`. -/
def releaseBlock (freeBlockList : Block) (blockIndex : Int) : Except Fault Block :=
  if blockIndex = -1 then .ok freeBlockList
  else if h : 0 ≤ blockIndex ∧ blockIndex < 1024 then
    .ok (Function.update freeBlockList ⟨blockIndex.toNat, by omega⟩ FreeBlock)
  else .error .freeListIndex

/-- Lines 457-471: the blocks behind the indirect pointer go back to the free
list; the block that held their numbers does not. -/
def releaseIndirect (junk : Mem) (indirectPointer : Int) (s : Sfs) : Except Fault Sfs :=
  if indirectPointer = -1 then .ok s
  else do
    let (tempBuffer, s) := s.readBlocks junk indirectPointer 1 junk
    let indirectBlock := IndirectBlock.ofImage tempBuffer
    let freeBlockList ← (List.ofFn indirectBlock).foldlM releaseBlock s.freeBlockListCache
    return { s with freeBlockListCache := freeBlockList }

/-- `sfs_remove`. -/
def sfsRemove (junk : Mem) (fname : CString) (s : Sfs) : Except Fault (Int × Sfs) :=
  if badLength (wrap32 fname.length) then .ok (-1, s)
  else
    match findName fname s with
    | none => .ok (-1, s)
    | some f => do
        let node := s.iNodes f
        let freeBlockList ←
          (List.ofFn node.directPointers).foldlM releaseBlock s.freeBlockListCache
        let s := { s with freeBlockListCache := freeBlockList }
        let s ← releaseIndirect junk node.indirectPointer s
        let s := s.setINode f INode.unused
        let s := s.setReadWritePointer f (-1)
        let s := s.setFilename f (Function.update (s.filename f) 0 0)
        let s := s.writeRootDirectory 5
        let s := s.writeFreeBlockList
        return (0, s.writeINodeTable)

/-! ## The calls as steps -/

/-- A call with its arguments. `mksfs` starts a run and is not one of them. -/
inductive Call where
  | fopen (fname : CString)
  | fclose (fd : Int)
  | fseek (fd location : Int)
  | fread (junk : Mem) (fd count : Int)
  | fwrite (junk : Mem) (fd : Int) (buf : Mem) (count : Int)
  | getnextfilename (fname : Mem)
  | getfilesize (path : CString)
  | remove (junk : Mem) (fname : CString)

/-- A call's return value and the state it leaves. -/
def Call.exec : Call → Sfs → Except Fault (Int × Sfs)
  | .fopen fname, s => .ok (sfsFopen fname s)
  | .fclose fd, s => .ok (sfsFclose fd s)
  | .fseek fd location, s => sfsFseek fd location s
  | .fread junk fd count, s => do
      let (ret, _, s) ← sfsFread junk fd count s
      return (ret, s)
  | .fwrite junk fd buf count, s => sfsFwrite junk fd buf count s
  | .getnextfilename fname, s =>
      let result := sfsGetnextfilename fname s
      .ok (result.1, result.2.2)
  | .getfilesize path, s => .ok (sfsGetfilesize path s, s)
  | .remove junk fname, s => sfsRemove junk fname s

end OsConcepts.Sfs
