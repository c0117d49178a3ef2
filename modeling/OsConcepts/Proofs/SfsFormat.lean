import OsConcepts.Proofs.SfsCalls

/-!
# A fresh disk

What `mksfs(1)` leaves, whatever the caches held before: the first eighteen
blocks and the free list's own are occupied, no i-node refers to a block, no
name is in use. The allocations of `mksfs` all start from a free list that is
occupied up to some block (`occupiedBelow`), so first fit hands out the blocks
in order.
-/

namespace OsConcepts.Sfs

open OsConcepts

variable {s : Sfs} {f : Fin 300} {junk : Mem}

/-- The free list when the blocks below `k` and its own are taken. -/
def occupiedBelow (k : Nat) : Block := fun i =>
  if i.val < k ∨ i.val = 1023 then OccupiedBlock else FreeBlock

theorem find_occupiedBelow {k : Nat} (hk : k < 1023)
    (h : s.freeBlockListCache = occupiedBelow k) :
    Fin.find? s.freeCell = some ⟨k, by omega⟩ := by
  refine Fin.find?_eq_some_iff.mpr ⟨?_, fun j hj => ?_⟩
  · simp only [freeCell, h, occupiedBelow]
    rw [if_neg (by omega)]
    decide
  · have hj' : j.val < k := hj
    simp only [freeCell, h, occupiedBelow]
    rw [if_pos (by omega)]
    decide

theorem take_occupiedBelow {k : Nat} (hk : k < 1023)
    (h : s.freeBlockListCache = occupiedBelow k) :
    (s.take ⟨k, by omega⟩).freeBlockListCache = occupiedBelow (k + 1) := by
  funext i
  rw [freeBlockListCache_take, h]
  unfold occupiedBelow
  by_cases hi : i = ⟨k, by omega⟩
  · rw [if_pos hi, if_pos (Or.inl (by rw [hi]; simp))]
  · have hne : i.val ≠ k := fun h => hi (Fin.ext h)
    rw [if_neg hi]
    congr 1
    simp only [eq_iff_iff]
    omega

/-- What the allocations of `mksfs` keep: only the free list and its block on
disk change. -/
structure Allocates (k : Nat) (s s' : Sfs) : Prop where
  freeList : s'.freeBlockListCache = occupiedBelow k
  saved : s'.disk.block 1023 = s'.freeBlockListCache
  iNodesTable : s'.iNodesTableCache = s.iNodesTableCache
  directory : s'.rootDirectoryCache = s.rootDirectoryCache

theorem Allocates.next {k : Nat} {s' : Sfs} (hk : k < 1023) (h : Allocates k s s') :
    Allocates (k + 1) s s'.allocateBlock.2 := by
  rw [allocateBlock_some (find_occupiedBelow hk h.freeList)]
  exact
    { freeList := take_occupiedBelow hk h.freeList
      saved := by rw [block_take (by omega), if_pos rfl]
      iNodesTable := h.iNodesTable
      directory := by rw [rootDirectoryCache_take, h.directory] }

theorem Allocates.blocks : ∀ {n k : Nat} {s' : Sfs}, k + n ≤ 1023 →
    Allocates k s s' → Allocates (k + n) s (allocateBlocks n s') := by
  intro n
  induction n with
  | zero => intro k s' _ h; exact h
  | succ n ih =>
      intro k s' hk h
      rw [allocateBlocks, show k + (n + 1) = k + 1 + n by omega]
      exact ih (by omega) (h.next (by omega))

theorem Allocates.directPointer {k : Nat} {x : INode × Sfs} (hk : k < 1023)
    (h : Allocates k s x.2) (i : Fin 12) : Allocates (k + 1) s (allocateDirectPointer x i).2 := by
  have hnext := h.next hk
  rcases hr : allocateBlock x.2 with ⟨b, s₁⟩
  rw [hr] at hnext
  rw [allocateDirectPointer, hr]
  exact hnext

theorem Allocates.directPointers : ∀ {l : List (Fin 12)} {k : Nat} {x : INode × Sfs},
    k + l.length ≤ 1023 → Allocates k s x.2 →
    Allocates (k + l.length) s (l.foldl allocateDirectPointer x).2 := by
  intro l
  induction l with
  | nil => intro k x _ h; exact h
  | cons i l ih =>
      intro k x hk h
      rw [List.length_cons] at hk ⊢
      rw [List.foldl_cons, show k + (l.length + 1) = k + 1 + l.length by omega]
      exact ih (by omega) (h.directPointer (by omega) i)

/-! ## The formatted state -/

/-- The allocator's side of a fresh disk. -/
structure Fresh (s : Sfs) : Prop where
  freeList : s.freeBlockListCache = occupiedBelow 18
  iNodes : ∀ f, s.iNodes f = INode.unused
  names : ∀ f, s.filename f 0 = 0
  location : s.rootDirectoryCache.location = 0
  descriptors : ∀ f, s.openFDTCache f = -1
  savedFreeList : s.disk.block 1023 = s.freeBlockListCache
  savedINodes : ∀ c : Nat, 1 ≤ c → c < 13 →
    s.disk.block c = fun j : Fin 1024 => s.iNodesTableCache.image ((c - 1) * 1024 + j)
  savedDirectory : ∀ c : Nat, 301 ≤ c → c < 306 →
    s.disk.block c = fun j : Fin 1024 => s.rootDirectoryCache.image ((c - 301) * 1024 + j)

theorem initFreeBlockList_allocates (s : Sfs) :
    Allocates 0 (initFreeBlockList s) (initFreeBlockList s) where
  freeList := by
    funext i
    simp [initFreeBlockList, initialFreeList, occupiedBelow]
  saved := by
    unfold initFreeBlockList
    rw [block_writeFreeBlockList (by omega), if_pos rfl]
    rfl
  iNodesTable := rfl
  directory := rfl

theorem Allocates.superBlock {t : Sfs} {k : Nat} (h : Allocates k t s) (b : SuperBlock) :
    Allocates k t (writeBlocks 0 1 b.image { s with superBlockCache := b }) where
  freeList := by
    rw [freeBlockListCache_writeBlocks]
    exact h.freeList
  saved := by
    rw [freeBlockListCache_writeBlocks]
    exact ((block_writeBlock (b := 0) (by omega) (by omega)).trans (if_neg (by omega))).trans
      h.saved
  iNodesTable := by
    rw [iNodesTableCache_writeBlocks]
    exact h.iNodesTable
  directory := by
    rw [rootDirectoryCache_writeBlocks]
    exact h.directory

variable (junk) in
theorem initSuperBlock_allocates {t : Sfs} (h : Allocates 0 t s) :
    Allocates 12 t (initSuperBlock junk s) := by
  have hlen : (List.finRange 12).length = 12 := List.length_finRange
  have hall := Allocates.directPointers (l := List.finRange 12) (x := (INode.ofImage junk, s))
    (by rw [hlen]; omega) h
  rw [hlen, Nat.zero_add] at hall
  exact hall.superBlock _

theorem Allocates.rootDirectory {t : Sfs} (h : Allocates 12 t s) :
    Allocates 18 (clearFilenames s) (allocateBlocks 6 (clearFilenames s)) := by
  have hbase : Allocates 12 (clearFilenames s) (clearFilenames s) :=
    ⟨h.freeList, h.saved, rfl, rfl⟩
  exact hbase.blocks (n := 6) (by omega)

theorem filename_clearFilenames (s : Sfs) (f : Fin 300) :
    (clearFilenames s).filename f 0 = 0 := by
  simp [clearFilenames, filename]

/-- The rest of the formatting, once the blocks are allocated. -/
def finishFormat (s : Sfs) : Sfs :=
  { initINodeTable ((s.setLocation 0).writeRootDirectory 5) with openFDTCache := fun _ => -1 }

theorem block_finishFormat {c : Nat} (hc : c < 2000) :
    s.finishFormat.disk.block c =
      if 1 ≤ c ∧ c < 13 then
        fun j : Fin 1024 => s.finishFormat.iNodesTableCache.image ((c - 1) * 1024 + j)
      else if 301 ≤ c ∧ c < 306 then
        fun j : Fin 1024 => s.finishFormat.rootDirectoryCache.image ((c - 301) * 1024 + j)
      else s.disk.block c := by
  refine (block_writeINodeTable hc).trans ?_
  congr 1
  exact block_writeRootDirectory_five hc

theorem finishFormat_fresh {t : Sfs} (h : Allocates 18 t s) (ht : ∀ f, t.filename f 0 = 0) :
    Fresh s.finishFormat where
  freeList := h.freeList
  iNodes f := rfl
  names f := by
    have hdir : s.filename f 0 = t.filename f 0 := by
      unfold filename
      rw [h.directory]
    exact hdir.trans (ht f)
  location := rfl
  descriptors f := rfl
  savedFreeList := by
    rw [block_finishFormat (by omega), if_neg (by omega), if_neg (by omega), h.saved]
    rfl
  savedINodes c hc hc' := by
    rw [block_finishFormat (by omega), if_pos ⟨hc, hc'⟩]
  savedDirectory c hc hc' := by
    rw [block_finishFormat (by omega), if_neg (by omega), if_pos ⟨hc, hc'⟩]

theorem mksfs_eq (junk : Mem) (s : Sfs) :
    mksfs 1 junk s = (allocateBlocks 6
      (clearFilenames (initSuperBlock junk (initFreeBlockList s)))).finishFormat := by
  unfold mksfs
  rw [if_pos (by decide), formatDisk, initRootDirectory, finishFormat]

theorem mksfs_fresh (junk : Mem) (s : Sfs) : Fresh (mksfs 1 junk s) := by
  have hall := initSuperBlock_allocates junk (initFreeBlockList_allocates s)
  rw [mksfs_eq]
  exact finishFormat_fresh hall.rootDirectory (filename_clearFilenames _)

theorem Fresh.pointer (h : Fresh s) (r : Ref) : s.pointer f r = -1 := by
  cases r <;> simp [Sfs.pointer, h.iNodes, INode.unused]

theorem Fresh.busy_iff (h : Fresh s) (b : Fin 1024) : s.ledger.busy b ↔ Reserved b := by
  simp only [ledger, h.freeList, occupiedBelow, Reserved]
  split
  · next hb => exact ⟨fun _ => hb, fun _ => rfl⟩
  · next hb => exact ⟨fun h => absurd h (by decide), fun h => absurd h hb⟩

theorem Fresh.owned (h : Fresh s) : Owned s where
  range f r := Or.inl (h.pointer r)
  sound :=
    { exclusive := fun {x y b} hx _ => by
        have hx' : s.pointer x.1 x.2 = (b : Nat) := hx
        rw [h.pointer] at hx'
        omega
      accounted := fun {x b} hx => by
        have hx' : s.pointer x.1 x.2 = (b : Nat) := hx
        rw [h.pointer] at hx'
        omega }
  reserved b hb := (h.busy_iff b).mpr hb
  apart f r b heq := by
    rw [h.pointer] at heq
    omega

/-- How much room a fresh disk has. -/
theorem Fresh.freeBelow (h : Fresh s) : ∀ {d : Nat}, d ≤ 1005 → s.freeBelow (18 + d) = d := by
  intro d
  induction d with
  | zero =>
      intro _
      refine FirstFit.freeBelow_eq_zero.mpr ?_
      intro i hi
      simp only [freeCell, h.freeList, occupiedBelow]
      rw [if_pos (Or.inl hi)]
      decide
  | succ d ih =>
      intro hd
      have hstep := FirstFit.freeBelow_succ s.freeCell ⟨18 + d, by omega⟩
      have hfree : s.freeCell ⟨18 + d, by omega⟩ = true := by
        simp only [freeCell, h.freeList, occupiedBelow]
        rw [if_neg (by omega)]
        decide
      rw [if_pos hfree] at hstep
      have hih := ih (by omega)
      unfold Sfs.freeBelow at hih ⊢
      rw [← Nat.add_assoc]
      exact hstep.trans (by rw [hih])

end OsConcepts.Sfs
