import OsConcepts.Sfs.References

/-!
# What the primitive operations change

One lemma for each field a primitive operation touches, and one frame lemma for
the pointers: a file's pointers depend on its i-node and on the contents of its
indirect block, on nothing else. Nothing after this file unfolds a write.
-/

namespace OsConcepts.Sfs

open OsConcepts

variable {s s' : Sfs} {f g : Fin 300}

/-! ## Field updates -/

@[simp] theorem iNodes_setINode (s : Sfs) (f g : Fin 300) (n : INode) :
    (s.setINode f n).iNodes g = if g = f then n else s.iNodes g := by
  by_cases h : g = f <;> simp [iNodes, setINode, h]

@[simp] theorem disk_setINode (s : Sfs) (f : Fin 300) (n : INode) :
    (s.setINode f n).disk = s.disk := (rfl)

@[simp] theorem freeBlockListCache_setINode (s : Sfs) (f : Fin 300) (n : INode) :
    (s.setINode f n).freeBlockListCache = s.freeBlockListCache := (rfl)

@[simp] theorem openFDTCache_setINode (s : Sfs) (f : Fin 300) (n : INode) :
    (s.setINode f n).openFDTCache = s.openFDTCache := (rfl)

@[simp] theorem rootDirectoryCache_setINode (s : Sfs) (f : Fin 300) (n : INode) :
    (s.setINode f n).rootDirectoryCache = s.rootDirectoryCache := (rfl)

@[simp] theorem iNodes_setReadWritePointer (s : Sfs) (f g : Fin 300) (p : Int) :
    (s.setReadWritePointer f p).iNodes g = s.iNodes g := (rfl)

@[simp] theorem disk_setReadWritePointer (s : Sfs) (f : Fin 300) (p : Int) :
    (s.setReadWritePointer f p).disk = s.disk := (rfl)

@[simp] theorem freeBlockListCache_setReadWritePointer (s : Sfs) (f : Fin 300) (p : Int) :
    (s.setReadWritePointer f p).freeBlockListCache = s.freeBlockListCache := (rfl)

@[simp] theorem rootDirectoryCache_setReadWritePointer (s : Sfs) (f : Fin 300) (p : Int) :
    (s.setReadWritePointer f p).rootDirectoryCache = s.rootDirectoryCache := (rfl)

@[simp] theorem openFDTCache_setReadWritePointer (s : Sfs) (f g : Fin 300) (p : Int) :
    (s.setReadWritePointer f p).openFDTCache g = if g = f then p else s.openFDTCache g := by
  by_cases h : g = f <;> simp [setReadWritePointer, h]

@[simp] theorem iNodes_setFilename (s : Sfs) (f g : Fin 300) (n : Fin 35 → Byte) :
    (s.setFilename f n).iNodes g = s.iNodes g := (rfl)

@[simp] theorem disk_setFilename (s : Sfs) (f : Fin 300) (n : Fin 35 → Byte) :
    (s.setFilename f n).disk = s.disk := (rfl)

@[simp] theorem freeBlockListCache_setFilename (s : Sfs) (f : Fin 300) (n : Fin 35 → Byte) :
    (s.setFilename f n).freeBlockListCache = s.freeBlockListCache := (rfl)

@[simp] theorem openFDTCache_setFilename (s : Sfs) (f : Fin 300) (n : Fin 35 → Byte) :
    (s.setFilename f n).openFDTCache = s.openFDTCache := (rfl)

@[simp] theorem filename_setFilename (s : Sfs) (f g : Fin 300) (n : Fin 35 → Byte) :
    (s.setFilename f n).filename g = if g = f then n else s.filename g := by
  by_cases h : g = f <;> simp [filename, setFilename, h]

@[simp] theorem iNodes_writeBlocks (s : Sfs) (a n : Int) (m : Mem) (g : Fin 300) :
    (s.writeBlocks a n m).iNodes g = s.iNodes g := (rfl)

@[simp] theorem iNodesTableCache_writeBlocks (s : Sfs) (a n : Int) (m : Mem) :
    (s.writeBlocks a n m).iNodesTableCache = s.iNodesTableCache := (rfl)

@[simp] theorem freeBlockListCache_writeBlocks (s : Sfs) (a n : Int) (m : Mem) :
    (s.writeBlocks a n m).freeBlockListCache = s.freeBlockListCache := (rfl)

@[simp] theorem openFDTCache_writeBlocks (s : Sfs) (a n : Int) (m : Mem) :
    (s.writeBlocks a n m).openFDTCache = s.openFDTCache := (rfl)

@[simp] theorem rootDirectoryCache_writeBlocks (s : Sfs) (a n : Int) (m : Mem) :
    (s.writeBlocks a n m).rootDirectoryCache = s.rootDirectoryCache := (rfl)

/-! ## Blocks on disk -/

theorem disk_writeBlocks (s : Sfs) (a n : Int) (m : Mem) :
    (s.writeBlocks a n m).disk = (s.disk.writeBlocks a n m).2 := (rfl)

theorem disk_size_lt : 1024 * 2000 < 2147483648 := by decide

/-- A transfer of `n` blocks at `a` puts its pieces in place. -/
theorem block_writeBlocks {m : Mem} {a n c : Nat} (h : a + n ≤ 2000) (hc : c < 2000) :
    (s.writeBlocks a n m).disk.block c =
      if a ≤ c ∧ c < a + n then fun j : Fin 1024 => m ((c - a) * 1024 + j)
      else s.disk.block c := by
  rw [disk_writeBlocks, Disk.writeBlocks_block _ (by decide) disk_size_lt h hc]

theorem block_writeBlock {m : Mem} {b c : Nat} (hb : b < 2000) (hc : c < 2000) :
    (s.writeBlocks b 1 m).disk.block c =
      if c = b then fun j : Fin 1024 => m j else s.disk.block c := by
  rw [disk_writeBlocks, Disk.writeBlock_block (by decide) disk_size_lt hb hc]

theorem pos_writeBlock {m : Mem} {b : Nat} (hb : b < 2000) :
    (s.writeBlocks b 1 m).disk.pos = (b + 1) * 1024 := by
  rw [disk_writeBlocks, Disk.writeBlock_pos (by decide) disk_size_lt hb]

theorem block_writeINodeTable {c : Nat} (hc : c < 2000) :
    s.writeINodeTable.disk.block c =
      if 1 ≤ c ∧ c < 13 then fun j : Fin 1024 => s.iNodesTableCache.image ((c - 1) * 1024 + j)
      else s.disk.block c := by
  have h := block_writeBlocks (s := s) (m := s.iNodesTableCache.image) (a := 1) (n := 12)
    (by omega) hc
  exact h

theorem block_writeRootDirectory {n c : Nat} (hn : n ≤ 5) (hc : c < 2000) :
    (s.writeRootDirectory n).disk.block c =
      if 301 ≤ c ∧ c < 301 + n then
        fun j : Fin 1024 => s.rootDirectoryCache.image ((c - 301) * 1024 + j)
      else s.disk.block c := by
  have h := block_writeBlocks (s := s) (m := s.rootDirectoryCache.image) (a := 301) (n := n)
    (by omega) hc
  rw [Nat.cast_ofNat] at h
  exact h

theorem block_writeRootDirectory_five {c : Nat} (hc : c < 2000) :
    (s.writeRootDirectory 5).disk.block c =
      if 301 ≤ c ∧ c < 306 then
        fun j : Fin 1024 => s.rootDirectoryCache.image ((c - 301) * 1024 + j)
      else s.disk.block c :=
  block_writeRootDirectory (n := 5) (by omega) hc

theorem Block.ofImage_image (b : Block) : (fun j : Fin 1024 => Block.image b j) = b := by
  funext j
  simp [Block.image]

theorem block_writeFreeBlockList {c : Nat} (hc : c < 2000) :
    s.writeFreeBlockList.disk.block c =
      if c = 1023 then s.freeBlockListCache else s.disk.block c := by
  have h := block_writeBlock (s := s) (m := Block.image s.freeBlockListCache) (b := 1023)
    (by omega) hc
  rw [Block.ofImage_image] at h
  exact h

/-! ## Indirect blocks -/

/-- Pointers that fit an `int` survive a trip through a block. -/
theorem IndirectBlock.ofImage_image {p : IndirectBlock} (hp : ∀ j, Int32Range (p j)) :
    IndirectBlock.ofImage (Block.image fun j => p.image j) = p := by
  funext j
  have hj := j.isLt
  refine memInt_of_bytes (hp j) ?_
  intro i hi
  have hdiv : (4 * j.val + i) / 4 = j := by omega
  simp only [Block.image, IndirectBlock.image]
  rw [dif_pos (by omega), dif_pos (by omega)]
  congr 1
  · congr 1
    exact Fin.ext hdiv
  · omega

theorem readBlocks_def (s : Sfs) (junk : Mem) (a n : Int) (m : Mem) :
    s.readBlocks junk a n m =
      ((s.disk.readBlocks junk a n m).2.1,
        { s with disk := (s.disk.readBlocks junk a n m).2.2 }) := rfl

theorem readBlocks_eq (s : Sfs) {junk m : Mem} {b : Nat} (hb : b < 2000) :
    s.readBlocks junk b 1 m =
      (memcpy m 0 (fun k => s.disk.bytes (b * 1024 + k)) 1024,
        { s with disk := s.disk.moveTo ((b + 1) * 1024) }) := by
  rw [readBlocks_def, Disk.readBlock_eq (by decide) disk_size_lt hb]

/-- What a block delivers, seen as block pointers. -/
theorem ofImage_memcpy_block (s : Sfs) {m : Mem} {b : Nat} :
    IndirectBlock.ofImage (memcpy m 0 (fun k => s.disk.bytes (b * 1024 + k)) 1024) =
      s.indirectBlockAt b := by
  funext j
  have hj := j.isLt
  simp only [indirectBlockAt, IndirectBlock.ofImage]
  refine memInt_congr ?_
  intro i hi
  rw [memcpy_in (by omega) (by omega)]
  simp only [Block.image, Disk.block, Int.toNat_natCast]
  rw [dif_pos (by omega), Nat.sub_zero]

theorem indirectBlockAt_congr {b : Int}
    (h : s'.disk.block b.toNat = s.disk.block b.toNat) :
    s'.indirectBlockAt b = s.indirectBlockAt b := by
  rw [indirectBlockAt, indirectBlockAt, h]

/-- The entries depend on the indirect pointer and the block it names. -/
theorem pointer_entry_congr {j : Fin 256}
    (hn : (s'.iNodes f).indirectPointer = (s.iNodes f).indirectPointer)
    (hb : s.pointer f .indirect ≠ -1 →
      s'.disk.block (s.pointer f .indirect).toNat =
        s.disk.block (s.pointer f .indirect).toNat) :
    s'.pointer f (.entry j) = s.pointer f (.entry j) := by
  simp only [pointer, hn]
  split
  · rfl
  · next h => rw [indirectBlockAt_congr (b := (s.iNodes f).indirectPointer) (hb h)]

/-- A file's pointers depend on those in its i-node and on its indirect block
only. -/
theorem pointer_congr
    (hd : (s'.iNodes f).directPointers = (s.iNodes f).directPointers)
    (hn : (s'.iNodes f).indirectPointer = (s.iNodes f).indirectPointer)
    (hb : s.pointer f .indirect ≠ -1 →
      s'.disk.block (s.pointer f .indirect).toNat =
        s.disk.block (s.pointer f .indirect).toNat) :
    s'.pointer f = s.pointer f := by
  funext r
  cases r with
  | direct i => simp only [pointer, hd]
  | indirect => simp only [pointer, hn]
  | entry j => exact pointer_entry_congr hn hb

/-- The entries of a block that was written as an image are those of the image. -/
theorem pointer_entry_of_image {a : Nat} {ib : IndirectBlock} (j : Fin 256)
    (hn : (s.iNodes f).indirectPointer = (a : Nat))
    (hb : s.disk.block a = fun i : Fin 1024 => IndirectBlock.image ib i)
    (hr : ∀ j, Int32Range (ib j)) : s.pointer f (.entry j) = ib j := by
  have hne : ¬ ((a : Nat) : Int) = -1 := by omega
  simp only [pointer, hn]
  rw [if_neg hne, indirectBlockAt, Int.toNat_natCast, hb, IndirectBlock.ofImage_image hr]

theorem blockPointer_congr (h : s'.pointer f = s.pointer f) (k : Nat) :
    s'.blockPointer f k = s.blockPointer f k := by
  simp only [blockPointer, h]

/-! ## Allocation -/

/-- The state after `allocateBlock` has chosen block `i`. -/
def take (s : Sfs) (i : Fin 1024) : Sfs :=
  writeFreeBlockList
    { s with freeBlockListCache := Function.update s.freeBlockListCache i OccupiedBlock }

theorem allocateBlock_some {i : Fin 1024} (h : Fin.find? s.freeCell = some i) :
    s.allocateBlock = (((i : Nat) : Int), s.take i) := by
  unfold freeCell at h
  unfold allocateBlock
  rw [h]
  rfl

theorem allocateBlock_none (h : Fin.find? s.freeCell = none) : s.allocateBlock = (-1, s) := by
  unfold freeCell at h
  unfold allocateBlock
  rw [h]

@[simp] theorem iNodes_take (s : Sfs) (i : Fin 1024) (g : Fin 300) :
    (s.take i).iNodes g = s.iNodes g := (rfl)

@[simp] theorem openFDTCache_take (s : Sfs) (i : Fin 1024) :
    (s.take i).openFDTCache = s.openFDTCache := (rfl)

@[simp] theorem rootDirectoryCache_take (s : Sfs) (i : Fin 1024) :
    (s.take i).rootDirectoryCache = s.rootDirectoryCache := (rfl)

@[simp] theorem freeBlockListCache_take (s : Sfs) (i : Fin 1024) (b : Fin 1024) :
    (s.take i).freeBlockListCache b = if b = i then 0 else s.freeBlockListCache b := by
  by_cases h : b = i <;> simp [take, writeFreeBlockList, writeBlocks, h]

theorem block_take {i : Fin 1024} {c : Nat} (hc : c < 2000) :
    (s.take i).disk.block c =
      if c = 1023 then (s.take i).freeBlockListCache else s.disk.block c := by
  rw [take, block_writeFreeBlockList hc]
  rfl

/-- The chosen block was free. -/
theorem free_of_find {i : Fin 1024} (h : Fin.find? s.freeCell = some i) :
    ¬ s.ledger.busy i := by
  have := (Fin.find?_eq_some_iff.mp h).1
  simpa [freeCell, ledger] using this

theorem freeBelow_take {i : Fin 1024} (h : Fin.find? s.freeCell = some i) (k : Nat) :
    (s.take i).freeBelow k = s.freeBelow k - 1 := by
  refine FirstFit.freeBelow_take h ?_ fun j hj => ?_
  · simp [freeCell]
  · simp [freeCell, hj]

theorem freeBelow_congr (h : s'.freeBlockListCache = s.freeBlockListCache) (k : Nat) :
    s'.freeBelow k = s.freeBelow k := by
  unfold freeBelow freeCell
  rw [h]

end OsConcepts.Sfs
