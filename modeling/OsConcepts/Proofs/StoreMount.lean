import OsConcepts.Proofs.Formats
import OsConcepts.Proofs.StoreWrite

/-!
# Starting and starting again

`mksfs(1)` leaves no files. `mksfs(0)` reads the caches back from the disk, over
what they hold: of the i-node table and the directory it moves the first twelve
and the first five blocks, and the bytes past them stay those of the process
(`mksfs_zero_merge`). So a process that mounts its own disk has its files as
before, all of them closed.
-/

namespace OsConcepts.Sfs

open OsConcepts FileStore

variable {s s' t : Sfs} {f g : Fin 300} {u : Store CString Byte} {junk m m' : Mem}

/-! ## What a mount moves -/

/-- A mount, in whatever process, of a disk that is up to date. -/
theorem mksfs_zero_merge (hs : Synced s) (ht : t.disk.bytes = s.disk.bytes) (junk : Mem) :
    ∃ p b, mksfs 0 junk t =
      { t.seek p with
        superBlockCache := b
        iNodesTableCache :=
          iNodesTableLayout.merge (12 * 1024) s.iNodesTableCache t.iNodesTableCache
        rootDirectoryCache :=
          rootDirectoryLayout.merge (5 * 1024) s.rootDirectoryCache t.rootDirectoryCache
        freeBlockListCache := s.freeBlockListCache
        openFDTCache := fun _ => -1 } := by
  have hblock : ∀ {u : Sfs}, u.disk.bytes = t.disk.bytes → ∀ c, u.disk.block c = s.disk.block c := by
    intro u hu c
    unfold Disk.block
    rw [hu, ht]
  rw [caches_mksfs_zero]
  unfold mountDisk
  obtain ⟨b, p₁, h₁⟩ := loadSuperBlock_spec junk { t with disk := t.disk.initDisk }
  generalize loadSuperBlock junk { t with disk := t.disk.initDisk } = s₁ at h₁ ⊢
  have hbytes₁ : s₁.disk.bytes = t.disk.bytes := by rw [h₁]; rfl
  obtain ⟨p₂, h₂⟩ := loadINodeTable_merge junk (t := s₁) (τ := s.iNodesTableCache)
    fun c hc hc' => (hblock hbytes₁ c).trans (hs.iNodes c hc hc')
  generalize loadINodeTable junk s₁ = s₂ at h₂ ⊢
  have hbytes₂ : s₂.disk.bytes = t.disk.bytes := by rw [h₂, ← hbytes₁]; rfl
  obtain ⟨p₃, h₃⟩ := loadRootDirectory_merge junk (t := s₂) (d := s.rootDirectoryCache)
    fun c hc hc' => (hblock hbytes₂ c).trans (hs.directory c hc hc')
  generalize loadRootDirectory junk s₂ = s₃ at h₃ ⊢
  have hbytes₃ : s₃.disk.bytes = t.disk.bytes := by rw [h₃, ← hbytes₂]; rfl
  obtain ⟨p₄, h₄⟩ := loadFreeBlockList_spec junk s₃
  have hlist : s₃.disk.block 1023 = s.freeBlockListCache :=
    (hblock hbytes₃ 1023).trans hs.freeList
  refine ⟨p₄, b, ?_⟩
  rw [h₄, hlist, h₃, h₂, h₁]
  rfl

/-! ## Mounting one's own disk -/

/-- The tables are as before, byte for byte, and nothing is open. -/
structure Reloads (s s' : Sfs) : Prop where
  table : ∀ k, k < 18016 → s'.iNodesTableCache.image k = s.iNodesTableCache.image k
  sameFile : ∀ f, SameFile (s.iNodes f) (s'.iNodes f)
  filename : ∀ f, s'.filename f = s.filename f
  freeList : s'.freeBlockListCache = s.freeBlockListCache
  descriptors : ∀ f, s'.openFDTCache f = -1
  block : ∀ c, s'.disk.block c = s.disk.block c

theorem mksfs_zero_reloads (hs : Saved s) (junk : Mem) : Reloads s (mksfs 0 junk s) := by
  obtain ⟨p, b, heq⟩ := mksfs_zero_merge hs.synced rfl junk
  have htable : ∀ k, k < 18016 → (mksfs 0 junk s).iNodesTableCache.image k =
      s.iNodesTableCache.image k := by
    intro k hk
    rw [heq]
    exact (iNodesTableLayout.image_merge hk).trans (ite_self _)
  rw [heq] at htable ⊢
  refine ⟨htable, fun f => ?_, fun f => funext fun i => ?_, rfl, fun _ => rfl, fun _ => rfl⟩
  · have hnode : (iNodesTableLayout.merge (12 * 1024) s.iNodesTableCache
        s.iNodesTableCache).iNodes f =
        INode.ofImage fun k => s.iNodesTableCache.image (16 + 60 * f + k) :=
      congrArg INode.ofImage (funext fun k => ite_self _)
    show SameFile _ ((iNodesTableLayout.merge _ _ _).iNodes f)
    rw [hnode]
    exact sameFile_of_image (hs.toOwned.storable (hs.size f)) fun k hk =>
      s.iNodesTableCache.image_iNode f hk
  · have hi := i.isLt
    have hf := f.isLt
    show (rootDirectoryLayout.merge _ _ _).directoryEntries f i = _
    rw [← RootDirectory.image_entry]
    have hlt : 35 * f.val + i.val < rootDirectoryLayout.length := by
      show _ < 10504
      omega
    exact ((rootDirectoryLayout.image_merge hlt).trans (ite_self _)).trans
      (RootDirectory.image_entry _ f i)

theorem Reloads.sameBlocks (h : Reloads s s') : SameBlocks s s' where
  pointer f := pointer_congr (h.sameFile f).directPointers (h.sameFile f).indirectPointer
    fun _ => h.block _
  freeList := h.freeList

theorem Reloads.entries (h : Reloads s s') :
    s'.rootDirectoryCache.directoryEntries = s.rootDirectoryCache.directoryEntries :=
  funext h.filename

theorem Reloads.saved (h : Reloads s s') (hs : Saved s) : Saved s' where
  toLow := h.sameBlocks.low hs.toLow
  synced :=
    { freeList := by rw [h.block, h.freeList, hs.synced.freeList]
      iNodes := fun c hc hc' => by
        rw [h.block, hs.synced.iNodes c hc hc']
        exact funext fun j => (h.table _ (by have := j.isLt; omega)).symm
      directory := fun c hc hc' => by
        rw [h.block, hs.synced.directory c hc hc']
        exact funext fun j => (image_of_entries h.entries (by have := j.isLt; omega)).symm }
  size f := by
    rw [(h.sameFile f).size]
    exact hs.size f
  covered f hl := by
    rw [Live, h.filename] at hl
    exact (hs.covered f hl).congr (h.filename f)

theorem Reloads.contents (h : Reloads s s') (f : Fin 300) : s'.contents f = s.contents f := by
  unfold Sfs.contents
  rw [(h.sameFile f).size]
  exact List.map_congr_left fun k _ => byteAt_congr (h.sameBlocks.pointer f) (h.block _)

theorem Reloads.stocked (h : Reloads s s') (hs : Stocked s) : Stocked s' := by
  refine hs.of_names (h.saved hs.toSaved) (fun g _ => h.filename g) (fun g _ hback => ?_)
    fun g hopen => ?_
  · obtain ⟨hlow, hmax, hthere⟩ := hback
    unfold Backed
    rw [(h.sameFile g).size]
    exact ⟨hlow, hmax, fun k hk => by rw [h.sameBlocks.blockPointer]; exact hthere k hk⟩
  · rw [h.descriptors] at hopen
    omega

/-- A file as before, but closed. -/
theorem view_closed (hlive : s'.Live f ↔ s.Live f)
    (hname : s.Live f → s'.filename f = s.filename f)
    (hcontents : s.Live f → s'.contents f = s.contents f) (hclosed : s'.openFDTCache f = -1) :
    s'.view f = (s.view f).map fun x => { x with position := none } := by
  by_cases hl : s.Live f
  · rw [Sfs.view, Sfs.view, if_pos hl, if_pos (hlive.mpr hl), nameIn_congr (hname hl),
      hcontents hl, hclosed]
    rfl
  · rw [Sfs.view, Sfs.view, if_neg hl, if_neg fun hl' => hl (hlive.mp hl')]
    rfl

theorem Represents.closeAll (hu : Represents s u)
    (hview : ∀ f, s'.view f = (s.view f).map fun x => { x with position := none }) :
    Represents s' u.closeAll := by
  refine funext fun d => ?_
  show (u.file d).map _ = (slot? d).bind s'.view
  rw [hu.file, files]
  cases slot? d with
  | none => rfl
  | some f => exact (hview f).symm

/-- The process sees its files again, closed. -/
theorem Reloads.represents (h : Reloads s s') (hu : Represents s u) : Represents s' u.closeAll :=
  hu.closeAll fun f => view_closed (live_congr (h.filename f)) (fun _ => h.filename f)
    (fun _ => h.contents f) (h.descriptors f)

/-! ## A new disk -/

theorem Fresh.stocked (h : Fresh s) : Stocked s where
  toSaved := h.saved
  named f hl := absurd (h.names f) hl
  distinct f g hl _ := absurd (h.names f) hl
  backed f hl := absurd (h.names f) hl
  position f hopen := by
    rw [h.descriptors] at hopen
    omega

theorem Fresh.represents (h : Fresh s) : Represents s .empty := by
  refine funext fun d => ?_
  show none = (slot? d).bind s.view
  cases slot? d with
  | none => rfl
  | some f => exact (if_neg fun hl => hl (h.names f)).symm

end OsConcepts.Sfs
