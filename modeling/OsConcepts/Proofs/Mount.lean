import OsConcepts.Proofs.Directory

/-!
# What a mount finds

`mksfs(0)` reads each cache from the blocks it is saved in. The i-node table is
saved as twelve blocks, which hold the i-nodes up to 203 in full; the directory
as five, which hold the names up to slot 145 and ten bytes of the next. A new
process starts from zeros, and what a transfer does not reach stays zero.
-/

namespace OsConcepts.Sfs

open OsConcepts

variable {s t t' : Sfs} {f : Fin 300} {junk m m' : Mem} {d : Disk 1024 2000} {a n : Nat}

/-! ## The transfers -/

/-- A transfer delivers what its blocks hold and moves the stream. -/
theorem readBlocks_spec (h : a + n ≤ 2000) (hr : t.readBlocks junk a n m = (m', t')) :
    (∀ k, m' k = if k < n * 1024 then t.disk.bytes (a * 1024 + k) else m k) ∧
      ∃ p, t' = t.seek p := by
  rw [readBlocks_def] at hr
  obtain ⟨hm, ht⟩ := Prod.mk.inj hr
  obtain ⟨p, hp⟩ := Disk.readBlocks_disk_pos junk m a n t.disk
  refine ⟨fun k => ?_, p, ?_⟩
  · rw [← hm, Disk.readBlocks_buffer (by decide) disk_size_lt h]
  · rw [← ht, hp]
    rfl

theorem loadSuperBlock_spec (junk : Mem) (s : Sfs) :
    ∃ b p, loadSuperBlock junk s = { s.seek p with superBlockCache := b } := by
  rcases hr : s.readBlocks junk 0 1 s.superBlockCache.image with ⟨m, s'⟩
  obtain ⟨-, p, rfl⟩ := readBlocks_spec (a := 0) (n := 1) (by omega) hr
  refine ⟨.ofImage m, p, ?_⟩
  unfold loadSuperBlock
  rw [hr]

theorem loadINodeTable_spec (junk : Mem) (s : Sfs) :
    ∃ m p, loadINodeTable junk s = { s.seek p with iNodesTableCache := .ofImage m } ∧
      ∀ k, k < 12 * 1024 → m k = s.disk.bytes (1 * 1024 + k) := by
  rcases hr : s.readBlocks junk 1 12 s.iNodesTableCache.image with ⟨m, s'⟩
  obtain ⟨hm, p, rfl⟩ := readBlocks_spec (a := 1) (n := 12) (by omega) hr
  refine ⟨m, p, ?_, fun k hk => ?_⟩
  · unfold loadINodeTable
    rw [hr]
  · rw [hm, if_pos hk]

theorem loadRootDirectory_spec (junk : Mem) (s : Sfs) :
    ∃ m p, loadRootDirectory junk s = { s.seek p with rootDirectoryCache := .ofImage m } ∧
      ∀ k, m k = if k < 5 * 1024 then s.disk.bytes (301 * 1024 + k)
        else s.rootDirectoryCache.image k := by
  rcases hr : s.readBlocks junk 301 5 s.rootDirectoryCache.image with ⟨m, s'⟩
  obtain ⟨hm, p, rfl⟩ := readBlocks_spec (a := 301) (n := 5) (by omega) hr
  refine ⟨m, p, ?_, hm⟩
  unfold loadRootDirectory
  rw [hr]

theorem loadFreeBlockList_spec (junk : Mem) (s : Sfs) :
    ∃ p, loadFreeBlockList junk s =
      { s.seek p with freeBlockListCache := s.disk.block 1023 } := by
  rcases hr : s.readBlocks junk 1023 1 s.freeBlockListCache.image with ⟨m, s'⟩
  obtain ⟨hm, p, rfl⟩ := readBlocks_spec (a := 1023) (n := 1) (by omega) hr
  have hblock : Block.ofImage m = s.disk.block 1023 := by
    funext i
    rw [Block.ofImage, hm, if_pos (by omega)]
    rfl
  refine ⟨p, ?_⟩
  unfold loadFreeBlockList
  rw [hr, ← hblock]

/-! ## The caches after a mount -/

/-- The caches of a process that has mounted a disk. -/
structure Mounted (d : Disk 1024 2000) (t : Sfs) : Prop where
  iNodes : ∃ m, t.iNodesTableCache = INodesTable.ofImage m ∧
    ∀ k, k < 12 * 1024 → m k = d.bytes (1 * 1024 + k)
  directory : ∃ m, t.rootDirectoryCache = RootDirectory.ofImage m ∧
    ∀ k, m k = if k < 5 * 1024 then d.bytes (301 * 1024 + k) else 0
  freeList : t.freeBlockListCache = d.block 1023
  descriptors : ∀ f, t.openFDTCache f = -1

theorem image_zeroed (k : Nat) : (zeroed d).rootDirectoryCache.image k = 0 := by
  have hbyte : ∀ i, intByte 0 i = 0 := fun i => by simp [intByte]
  show RootDirectory.image ⟨fun _ _ => 0, 0⟩ k = 0
  rw [RootDirectory.image]
  split
  · rfl
  · split
    · exact hbyte _
    · rfl

/-- Each cache comes from its blocks; what the transfer of the directory does not
reach is as it was. -/
theorem mountDisk_caches (junk : Mem) (s : Sfs) :
    (∃ m, (mountDisk junk s).iNodesTableCache = INodesTable.ofImage m ∧
      ∀ k, k < 12 * 1024 → m k = s.disk.bytes (1 * 1024 + k)) ∧
    (∃ m, (mountDisk junk s).rootDirectoryCache = RootDirectory.ofImage m ∧
      ∀ k, m k = if k < 5 * 1024 then s.disk.bytes (301 * 1024 + k)
        else s.rootDirectoryCache.image k) ∧
    (mountDisk junk s).freeBlockListCache = s.disk.block 1023 := by
  unfold mountDisk
  obtain ⟨b, p₁, h₁⟩ := loadSuperBlock_spec junk { s with disk := s.disk.initDisk }
  generalize loadSuperBlock junk { s with disk := s.disk.initDisk } = s₁ at h₁ ⊢
  have hbytes₁ : s₁.disk.bytes = s.disk.bytes := by rw [h₁]; rfl
  have hdir₁ : s₁.rootDirectoryCache = s.rootDirectoryCache := by rw [h₁]; rfl
  obtain ⟨m₂, p₂, h₂, hm₂⟩ := loadINodeTable_spec junk s₁
  generalize loadINodeTable junk s₁ = s₂ at h₂ ⊢
  have hbytes₂ : s₂.disk.bytes = s₁.disk.bytes := by rw [h₂]; rfl
  have hdir₂ : s₂.rootDirectoryCache = s₁.rootDirectoryCache := by rw [h₂]; rfl
  have htable₂ : s₂.iNodesTableCache = .ofImage m₂ := by rw [h₂]
  obtain ⟨m₃, p₃, h₃, hm₃⟩ := loadRootDirectory_spec junk s₂
  generalize loadRootDirectory junk s₂ = s₃ at h₃ ⊢
  have hbytes₃ : s₃.disk.bytes = s₂.disk.bytes := by rw [h₃]; rfl
  have htable₃ : s₃.iNodesTableCache = s₂.iNodesTableCache := by rw [h₃]; rfl
  have hdir₃ : s₃.rootDirectoryCache = .ofImage m₃ := by rw [h₃]
  obtain ⟨p₄, h₄⟩ := loadFreeBlockList_spec junk s₃
  rw [h₄]
  refine ⟨⟨m₂, htable₃.trans htable₂, fun k hk => ?_⟩, ⟨m₃, hdir₃, fun k => ?_⟩, ?_⟩
  · rw [hm₂ k hk, hbytes₁]
  · rw [hm₃, hbytes₂, hbytes₁, hdir₂, hdir₁]
  · show s₃.disk.block 1023 = s.disk.block 1023
    unfold Disk.block
    rw [hbytes₃, hbytes₂, hbytes₁]

theorem caches_mksfs_zero (junk : Mem) (s : Sfs) :
    mksfs 0 junk s = { mountDisk junk s with openFDTCache := fun _ => -1 } := by
  rw [mksfs, if_neg (by decide)]

variable (d junk) in
theorem mksfs_mounted : Mounted d (mksfs 0 junk (zeroed d)) := by
  obtain ⟨⟨m₂, htable, hm₂⟩, ⟨m₃, hdir, hm₃⟩, hfree⟩ := mountDisk_caches junk (zeroed d)
  rw [caches_mksfs_zero]
  generalize mountDisk junk (zeroed d) = t at *
  refine ⟨⟨m₂, htable, hm₂⟩, ⟨m₃, hdir, fun k => ?_⟩, hfree, fun f => rfl⟩
  rw [hm₃, image_zeroed]
  rfl

/-! ## What was saved comes back -/

/-- The disk holds the free list, the i-node table and the directory as the
caches do, as far as the transfers reach. -/
structure Synced (s : Sfs) : Prop where
  freeList : s.disk.block 1023 = s.freeBlockListCache
  iNodes : ∀ c : Nat, 1 ≤ c → c < 13 →
    s.disk.block c = fun j : Fin 1024 => s.iNodesTableCache.image ((c - 1) * 1024 + j)
  directory : ∀ c : Nat, 301 ≤ c → c < 306 →
    s.disk.block c = fun j : Fin 1024 => s.rootDirectoryCache.image ((c - 301) * 1024 + j)

/-- Blocks in a row that hold the pieces of a buffer hold the buffer. -/
theorem bytes_of_blocks (h : ∀ c, a ≤ c → c < a + n →
    d.block c = fun j : Fin 1024 => m ((c - a) * 1024 + j)) {k : Nat} (hk : k < n * 1024) :
    d.bytes (a * 1024 + k) = m k := by
  have haddr : (a + k / 1024) * 1024 + k % 1024 = a * 1024 + k := by omega
  have hoff : (a + k / 1024 - a) * 1024 + k % 1024 = k := by
    rw [Nat.add_sub_cancel_left, Nat.div_add_mod']
  have hlt : a + k / 1024 < a + n := by omega
  have hblock := congrFun (h (a + k / 1024) (Nat.le_add_right _ _) hlt)
    ⟨k % 1024, Nat.mod_lt _ (by decide)⟩
  simp only [Disk.block, haddr, hoff] at hblock
  exact hblock

/-- A field of a stored i-node is read back as it was. -/
theorem memInt_image {node : INode} {j : Nat} (hr : Int32Range (node.field j))
    (h : ∀ i < 4, m (4 * j + i) = node.image (4 * j + i)) : memInt m (4 * j) = node.field j := by
  refine memInt_of_bytes hr ?_
  intro i hi
  have hdiv : (4 * j + i) / 4 = j := by omega
  have hmod : (4 * j + i) % 4 = i := by omega
  rw [h i hi, INode.image, hdiv, hmod]

/-- The fields of an i-node that say where a file's data is. -/
structure SameFile (node node' : INode) : Prop where
  size : node'.size = node.size
  directPointers : node'.directPointers = node.directPointers
  indirectPointer : node'.indirectPointer = node.indirectPointer

/-- The same fields fit an `int`. -/
structure Storable (node : INode) : Prop where
  size : Int32Range node.size
  directPointers : ∀ i, Int32Range (node.directPointers i)
  indirectPointer : Int32Range node.indirectPointer

theorem INode.size_ofImage (m : Mem) : (INode.ofImage m).size = memInt m (4 * 1) := by
  rw [INode.ofImage]

theorem INode.directPointers_ofImage (m : Mem) (i : Fin 12) :
    (INode.ofImage m).directPointers i = memInt m (4 * (i.val + 2)) := by
  rw [INode.ofImage, show 4 * (i.val + 2) = 8 + 4 * i.val by omega]

theorem INode.indirectPointer_ofImage (m : Mem) :
    (INode.ofImage m).indirectPointer = memInt m (4 * 14) := by
  rw [INode.ofImage]

theorem sameFile_of_image {node : INode} (hs : Storable node)
    (h : ∀ k, k < 60 → m k = node.image k) : SameFile node (INode.ofImage m) := by
  have hfield : ∀ j, j < 15 → Int32Range (node.field j) → memInt m (4 * j) = node.field j :=
    fun j hj hr => memInt_image hr fun i hi => h _ (by omega)
  refine ⟨?_, funext fun i => ?_, ?_⟩
  · have hsize : node.field 1 = node.size := rfl
    rw [INode.size_ofImage, hfield 1 (by omega) (by rw [hsize]; exact hs.size), hsize]
  · have hi := i.isLt
    have hdirect : node.field (i.val + 2) = node.directPointers i := dif_pos hi
    rw [INode.directPointers_ofImage, hfield _ (by omega)
      (by rw [hdirect]; exact hs.directPointers i), hdirect]
  · have hind : node.field 14 = node.indirectPointer := rfl
    rw [INode.indirectPointer_ofImage, hfield 14 (by omega)
      (by rw [hind]; exact hs.indirectPointer), hind]

/-- The i-nodes up to slot 203 come back. -/
theorem Mounted.sameFile {τ : INodesTable} (h : Mounted d t)
    (hτ : ∀ c : Nat, 1 ≤ c → c < 13 →
      d.block c = fun j : Fin 1024 => τ.image ((c - 1) * 1024 + j))
    (hf : f.val < 204) (hnode : Storable (τ.iNodes f)) : SameFile (τ.iNodes f) (t.iNodes f) := by
  obtain ⟨m, htable, hm⟩ := h.iNodes
  have hbytes : ∀ k, k < 60 → m (16 + 60 * f + k) = (τ.iNodes f).image k := by
    intro k hk
    have hall := bytes_of_blocks (a := 1) (n := 12) (d := d)
      (fun c hc hc' => hτ c hc hc') (k := 16 + 60 * f + k) (by omega)
    rw [hm _ (by omega), hall, INodesTable.image_iNode _ _ hk]
  have hnode' : t.iNodes f = INode.ofImage fun k => m (16 + 60 * f + k) := by
    unfold Sfs.iNodes
    rw [htable]
    rfl
  rw [hnode']
  exact sameFile_of_image hnode hbytes

/-- A name comes back as far as the five blocks hold it; the rest is empty. -/
theorem Mounted.filename (h : Mounted s.disk t) (hs : Synced s) (f : Fin 300) (i : Fin 35) :
    t.filename f i = if 35 * f.val + i < 5120 then s.filename f i else 0 := by
  obtain ⟨m, hdir, hm⟩ := h.directory
  have hname : t.filename f i = m (35 * f + i) := by
    unfold Sfs.filename
    rw [hdir]
    rfl
  rw [hname, hm]
  split
  · next hlt =>
      rw [bytes_of_blocks (a := 301) (n := 5) (d := s.disk)
        (fun c hc hc' => hs.directory c hc hc') hlt, RootDirectory.image_entry]
      rfl
  · rfl

end OsConcepts.Sfs
