import OsConcepts.Proofs.Mount
import OsConcepts.Sfs.Layouts

/-!
# Saving and loading the structures

A structure is saved as its first blocks and loaded over what a cache holds, so
a load gives the saved bytes as far as they go and leaves the others (`merge`).
The super block, the free list and an indirect block lie in one block each and
come back whole. The twelve blocks of the i-node table end in the i-node of slot
204, the five of the directory in the name of slot 146.
-/

namespace OsConcepts.Sfs

open OsConcepts

variable {s s' t : Sfs} {f : Fin 300} {junk m m' : Mem}

/-! ## Parts of a structure -/

theorem iNodes_merge_of_lt {n : Nat} {a b : INodesTable} (hf : 16 + 60 * (f.val + 1) ≤ n)
    (hfits : iNodeLayout.Fits (a.iNodes f)) :
    (iNodesTableLayout.merge n a b).iNodes f = a.iNodes f :=
  iNodeLayout.ofImage_of_bytes hfits fun k hk => by
    have hk60 : k < 60 := hk
    dsimp only
    rw [if_pos (by omega)]
    exact a.image_iNode f hk

theorem iNodes_merge_of_ge {n : Nat} {a b : INodesTable} (hf : n ≤ 16 + 60 * f.val)
    (hfits : iNodeLayout.Fits (b.iNodes f)) :
    (iNodesTableLayout.merge n a b).iNodes f = b.iNodes f :=
  iNodeLayout.ofImage_of_bytes hfits fun k hk => by
    dsimp only
    rw [if_neg (by omega)]
    exact b.image_iNode f hk

theorem entries_merge (n : Nat) (a b : RootDirectory) (f : Fin 300) (i : Fin 35) :
    (rootDirectoryLayout.merge n a b).directoryEntries f i =
      if 35 * f.val + i < n then a.directoryEntries f i else b.directoryEntries f i := by
  rw [← a.image_entry, ← b.image_entry]
  rfl

/-! ## Loading -/

/-- Blocks that hold a structure are read over another one. -/
theorem readBlocks_merge {α : Type} (L : Layout α) {a n : Nat} {x y : α} (h : a + n ≤ 2000)
    (hx : ∀ c : Nat, a ≤ c → c < a + n →
      t.disk.block c = fun j : Fin 1024 => L.image x ((c - a) * 1024 + j))
    (hr : t.readBlocks junk a n (L.image y) = (m', s')) :
    L.ofImage m' = L.merge (n * 1024) x y ∧ ∃ p, s' = t.seek p := by
  obtain ⟨hm, hp⟩ := readBlocks_spec h hr
  refine ⟨congrArg L.ofImage (funext fun k => ?_), hp⟩
  rw [hm]
  split
  · next hk => exact bytes_of_blocks hx hk
  · rfl

theorem loadINodeTable_merge (junk : Mem) {τ : INodesTable} (h : ∀ c : Nat, 1 ≤ c → c < 13 →
      t.disk.block c = fun j : Fin 1024 => τ.image ((c - 1) * 1024 + j)) :
    ∃ p, loadINodeTable junk t = { t.seek p with
      iNodesTableCache := iNodesTableLayout.merge (12 * 1024) τ t.iNodesTableCache } := by
  rcases hr : t.readBlocks junk 1 12 t.iNodesTableCache.image with ⟨m, s'⟩
  obtain ⟨hm, p, rfl⟩ := readBlocks_merge iNodesTableLayout (a := 1) (n := 12) (by omega) h hr
  refine ⟨p, ?_⟩
  unfold loadINodeTable
  rw [hr, ← hm]
  rfl

theorem loadRootDirectory_merge (junk : Mem) {d : RootDirectory} (h : ∀ c : Nat, 301 ≤ c → c < 306 →
      t.disk.block c = fun j : Fin 1024 => d.image ((c - 301) * 1024 + j)) :
    ∃ p, loadRootDirectory junk t = { t.seek p with
      rootDirectoryCache := rootDirectoryLayout.merge (5 * 1024) d t.rootDirectoryCache } := by
  rcases hr : t.readBlocks junk 301 5 t.rootDirectoryCache.image with ⟨m, s'⟩
  obtain ⟨hm, p, rfl⟩ := readBlocks_merge rootDirectoryLayout (a := 301) (n := 5) (by omega) h hr
  refine ⟨p, ?_⟩
  unfold loadRootDirectory
  rw [hr, ← hm]
  rfl

/-! ## Saved by one process, loaded by another -/

/-- A block that holds all of a structure gives it back. -/
theorem readBlock_layout {α : Type} (L : Layout α) {a : Nat} {x : α} (hx : L.Fits x)
    (hlen : L.length ≤ 1024) (ha : a < 2000) (m : Mem)
    (hblock : t.disk.block a = fun j : Fin 1024 => L.image x j)
    (hr : t.readBlocks junk a 1 m = (m', s')) : L.ofImage m' = x := by
  obtain ⟨hm, -⟩ := readBlocks_spec (a := a) (n := 1) (by omega) hr
  refine L.ofImage_of_bytes hx fun k hk => ?_
  rw [hm, if_pos (by omega)]
  have hbyte := congrFun hblock ⟨k, by omega⟩
  exact hbyte

variable (s t : Sfs) (junk : Mem)

theorem loadSuperBlock_of_block {w : Sfs} {b : SuperBlock} (hb : superBlockLayout.Fits b)
    (hblock : w.disk.block 0 = fun j : Fin 1024 => b.image j) :
    (loadSuperBlock junk { t with disk := w.disk }).superBlockCache = b := by
  unfold loadSuperBlock
  rcases hr : readBlocks junk 0 1 t.superBlockCache.image { t with disk := w.disk } with ⟨m', s'⟩
  exact readBlock_layout (t := { t with disk := w.disk }) (a := 0) superBlockLayout hb (by decide)
    (by omega) _ hblock hr

theorem loadFreeBlockList_of_block {w : Sfs} {b : Block} (hblock : w.disk.block 1023 = b) :
    (loadFreeBlockList junk { t with disk := w.disk }).freeBlockListCache = b := by
  obtain ⟨p, hload⟩ := loadFreeBlockList_spec junk { t with disk := w.disk }
  rw [hload]
  exact hblock

theorem readIndirect_of_block {w : Sfs} {p : IndirectBlock} (hp : indirectBlockLayout.Fits p)
    {a : Nat} (ha : a < 2000) (m : Mem)
    (hblock : w.disk.block a = fun j : Fin 1024 => p.image j) :
    IndirectBlock.ofImage (readBlocks junk a 1 m { t with disk := w.disk }).1 = p := by
  rcases hr : readBlocks junk a 1 m { t with disk := w.disk } with ⟨m', s'⟩
  rw [← indirectBlockLayout_ofImage]
  exact readBlock_layout (t := { t with disk := w.disk }) indirectBlockLayout hp
    (Nat.le_refl 1024) ha m hblock hr

/-- A block just written. -/
theorem block_written {a : Nat} (ha : a < 2000) (m : Mem) :
    (s.writeBlocks a 1 m).disk.block a = fun j : Fin 1024 => m j := by
  rw [block_writeBlock ha ha, if_pos rfl]

theorem iNodes_of_save (f : Fin 300) :
    (f.val < 204 → iNodeLayout.Fits (s.iNodes f) →
      (loadINodeTable junk { t with disk := s.writeINodeTable.disk }).iNodes f = s.iNodes f) ∧
    (204 < f.val → iNodeLayout.Fits (t.iNodes f) →
      (loadINodeTable junk { t with disk := s.writeINodeTable.disk }).iNodes f = t.iNodes f) := by
  obtain ⟨p, hload⟩ := loadINodeTable_merge junk (τ := s.iNodesTableCache)
    (t := { t with disk := s.writeINodeTable.disk }) fun c hc hc' =>
      (block_writeINodeTable (by omega)).trans (if_pos ⟨hc, hc'⟩)
  rw [hload]
  exact ⟨fun hf hfits => iNodes_merge_of_lt (by omega) hfits,
    fun hf hfits => iNodes_merge_of_ge (by omega) hfits⟩

theorem filename_of_save (f : Fin 300) (i : Fin 35) :
    (loadRootDirectory junk { t with disk := (s.writeRootDirectory 5).disk }).filename f i =
      if 35 * f.val + i < 5120 then s.filename f i else t.filename f i := by
  obtain ⟨p, hload⟩ := loadRootDirectory_merge junk (d := s.rootDirectoryCache)
    (t := { t with disk := (s.writeRootDirectory 5).disk }) fun c hc hc' =>
      (block_writeRootDirectory_five (by omega)).trans (if_pos ⟨hc, hc'⟩)
  rw [hload]
  exact entries_merge _ _ _ f i

/-- What one process saves, another one loads over its own caches. -/
theorem saved_structures_load :
    (∀ b, superBlockLayout.Fits b →
      (loadSuperBlock junk { t with disk := (s.writeBlocks 0 1 b.image).disk }).superBlockCache =
        b) ∧
    (loadFreeBlockList junk { t with disk := s.writeFreeBlockList.disk }).freeBlockListCache =
      s.freeBlockListCache ∧
    (∀ (a : Fin 1024) p, indirectBlockLayout.Fits p → ∀ m,
      IndirectBlock.ofImage (readBlocks junk (a : Nat) 1 m
        { t with disk := (s.writeBlocks (a : Nat) 1 (IndirectBlock.image p)).disk }).1 = p) ∧
    (∀ f : Fin 300,
      (f.val < 204 → iNodeLayout.Fits (s.iNodes f) →
        (loadINodeTable junk { t with disk := s.writeINodeTable.disk }).iNodes f = s.iNodes f) ∧
      (204 < f.val → iNodeLayout.Fits (t.iNodes f) →
        (loadINodeTable junk { t with disk := s.writeINodeTable.disk }).iNodes f = t.iNodes f)) ∧
    ∀ (f : Fin 300) (i : Fin 35),
      (loadRootDirectory junk { t with disk := (s.writeRootDirectory 5).disk }).filename f i =
        if 35 * f.val + i < 5120 then s.filename f i else t.filename f i :=
  ⟨fun b hb => loadSuperBlock_of_block t junk hb (block_written s (a := 0) (by omega) b.image),
    loadFreeBlockList_of_block t junk
      ((block_writeFreeBlockList (by omega)).trans (if_pos rfl)),
    fun a p hp m => readIndirect_of_block t junk hp (by omega) m
      (block_written s (by omega) p.image),
    iNodes_of_save s t junk, filename_of_save s t junk⟩

theorem iNodeLayout_fits_unused : iNodeLayout.Fits INode.unused := by
  intro j hj
  have hfield : INode.unused.field j = -1 := by
    match j with
    | 0 => rfl
    | 1 => rfl
    | i + 2 =>
        rw [INode.field]
        split <;> rfl
  rw [hfield]
  exact ⟨by decide, by decide⟩

/-- Of a table saved after formatting, a new process gets the i-node of slot
203, and keeps its own of slot 205. -/
theorem saved_structures_load_unused :
    (loadINodeTable (fun _ => 0) { zeroed formatted.disk with
      disk := formatted.writeINodeTable.disk }).iNodes 203 = INode.unused ∧
    (loadINodeTable (fun _ => 0) { zeroed formatted.disk with
      disk := formatted.writeINodeTable.disk }).iNodes 205 = ⟨0, 0, fun _ => 0, 0⟩ := by
  obtain ⟨-, -, -, htable, -⟩ :=
    saved_structures_load formatted (zeroed formatted.disk) fun _ => 0
  have hnode := formatted_fresh.iNodes 203
  refine ⟨((htable 203).1 (by decide) ?_).trans hnode, (htable 205).2 (by decide) ?_⟩
  · rw [hnode]
    exact iNodeLayout_fits_unused
  · intro j hj
    have hfield : ((zeroed formatted.disk).iNodes 205).field j = 0 := by
      match j with
      | 0 => rfl
      | 1 => rfl
      | i + 2 =>
          rw [INode.field]
          split <;> rfl
    rw [hfield]
    exact ⟨by decide, by decide⟩

end OsConcepts.Sfs
