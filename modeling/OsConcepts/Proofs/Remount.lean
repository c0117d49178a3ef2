import OsConcepts.Proofs.Conservation
import OsConcepts.Proofs.Mount

/-!
# Remounting

The tables and the free list are saved whenever they change, with two gaps. The
five blocks of the directory end in the name of slot 146; and a write that stops
on the way has already put the direct and the indirect pointer of the blocks it
took into the cached i-node, which it does not save. Along calls that avoid both
and fit below the directory, the disk keeps up with the caches (`Saved`), and a
mount in a new process finds every file again.
-/

namespace OsConcepts.Sfs

open OsConcepts

variable {s s' t : Sfs} {f g : Fin 300} {c : Call} {ret : Int} {junk : Mem} {fname : CString}

/-! ## What a mount must find -/

/-- The name of a slot lies in the blocks the directory is saved in. -/
def Covered (s : Sfs) (f : Fin 300) : Prop :=
  f.val < 146 ∨ f.val = 146 ∧ ∀ i : Fin 35, 10 ≤ i.val → s.filename f i = 0

/-- The disk is up to date and holds all that the files in use need. -/
structure Saved (s : Sfs) : Prop extends Low s where
  synced : Synced s
  size : ∀ f, Int32Range (s.iNodes f).size
  covered : ∀ f, s.Live f → Covered s f

/-- A process has the files, their data and the free blocks of another, and
nothing open. -/
structure Restores (s t : Sfs) : Prop where
  live : ∀ f, t.Live f ↔ s.Live f
  filename : ∀ f, s.Live f → t.filename f = s.filename f
  file : ∀ f, s.Live f → SameFile (s.iNodes f) (t.iNodes f)
  freeList : t.freeBlockListCache = s.freeBlockListCache
  descriptors : ∀ f, t.openFDTCache f = -1

theorem Owned.storable (hs : Owned s) (hsize : Int32Range (s.iNodes f).size) :
    Storable (s.iNodes f) where
  size := hsize
  directPointers i := by
    have := hs.range f (.direct i)
    simp only [pointer] at this
    exact ⟨by omega, by omega⟩
  indirectPointer := by
    have := hs.range f .indirect
    simp only [pointer] at this
    exact ⟨by omega, by omega⟩

theorem Saved.restores (h : Saved s) (junk : Mem) :
    Restores s (mksfs 0 junk (zeroed s.disk)) := by
  have hm := mksfs_mounted junk s.disk
  generalize mksfs 0 junk (zeroed s.disk) = t at hm
  have hname : ∀ f, s.Live f → t.filename f = s.filename f := by
    intro f hl
    funext i
    rw [hm.filename h.synced]
    split
    · rfl
    · next hlt =>
        have hi := i.isLt
        rcases h.covered f hl with hf | ⟨hf, hrest⟩
        · omega
        · exact (hrest i (by omega)).symm
  refine ⟨fun f => ?_, hname, fun f hl => ?_, hm.freeList.trans h.synced.freeList,
    hm.descriptors⟩
  · by_cases hl : s.Live f
    · exact iff_of_true (by rw [Live, hname f hl]; exact hl) hl
    · refine iff_of_false (fun htl => ?_) hl
      rw [Live, hm.filename h.synced] at htl
      split at htl
      · exact hl htl
      · exact htl rfl
  · have hf : f.val < 204 := by
      rcases h.covered f hl with hf | ⟨hf, -⟩ <;> omega
    exact hm.sameFile h.synced.iNodes hf (h.toOwned.storable (h.size f))

/-! ## Calls that leave the tables as they are -/

theorem image_of_entries {d d' : RootDirectory} (h : d'.directoryEntries = d.directoryEntries)
    {k : Nat} (hk : k < 10500) : d'.image k = d.image k := by
  unfold RootDirectory.image
  rw [dif_pos (by omega), dif_pos (by omega), h]

theorem Rereads.synced (h : Rereads f s s') (hs : Synced s) : Synced s' := by
  obtain ⟨p, q, rfl⟩ := h
  exact ⟨hs.freeList, hs.iNodes, hs.directory⟩

theorem Rereads.iNodesTableCache (h : Rereads f s s') :
    s'.iNodesTableCache = s.iNodesTableCache := by
  obtain ⟨p, q, rfl⟩ := h
  simp

theorem Fresh.synced (h : Fresh s) : Synced s :=
  ⟨h.savedFreeList, h.savedINodes, h.savedDirectory⟩

theorem saveLocation_synced (hs : Synced s) {l : Int} {n : Nat} (hn : n ≤ 5) :
    Synced (s.saveLocation l n) := by
  have hentries : (s.setLocation l).rootDirectoryCache.directoryEntries =
      s.rootDirectoryCache.directoryEntries := rfl
  unfold saveLocation
  refine ⟨?_, fun c hc hc' => ?_, fun c hc hc' => ?_⟩
  · rw [block_writeRootDirectory hn (by omega), if_neg (by omega), disk_setLocation, hs.freeList]
    simp
  · rw [block_writeRootDirectory hn (by omega), if_neg (by omega), disk_setLocation,
      hs.iNodes c hc hc', iNodesTableCache_writeRootDirectory, iNodesTableCache_setLocation]
  · rw [block_writeRootDirectory hn (by omega), rootDirectoryCache_writeRootDirectory]
    split
    · rfl
    · rw [disk_setLocation, hs.directory c hc hc']
      funext j
      have hj := j.isLt
      exact (image_of_entries hentries (by omega)).symm

/-! ## Calls that save them -/

theorem createFile_synced (hs : Synced s) : Synced (s.createFile f fname) := by
  unfold createFile
  generalize ht : ((s.setReadWritePointer f 0).setINode f
    { s.iNodes f with size := 0 }).setFilename f (fun i => strncpy fname.image 35 i) = t
  have hdisk : t.disk = s.disk := by
    rw [← ht, disk_setFilename, disk_setINode, disk_setReadWritePointer]
  have hlist : t.freeBlockListCache = s.freeBlockListCache := by
    rw [← ht, freeBlockListCache_setFilename, freeBlockListCache_setINode,
      freeBlockListCache_setReadWritePointer]
  refine ⟨?_, fun c hc hc' => ?_, fun c hc hc' => ?_⟩
  · rw [block_writeRootDirectory_five (by omega), if_neg (by omega),
      block_writeINodeTable (by omega), if_neg (by omega), hdisk, hs.freeList,
      freeBlockListCache_writeRootDirectory, freeBlockListCache_writeINodeTable, hlist]
  · rw [block_writeRootDirectory_five (by omega), if_neg (by omega),
      block_writeINodeTable (by omega), if_pos ⟨hc, hc'⟩, iNodesTableCache_writeRootDirectory,
      iNodesTableCache_writeINodeTable]
  · rw [block_writeRootDirectory_five (by omega), if_pos ⟨hc, hc'⟩,
      rootDirectoryCache_writeRootDirectory]

/-- Directory, free list and i-node table are saved. -/
def saveTables (s : Sfs) : Sfs := ((s.writeRootDirectory 5).writeFreeBlockList).writeINodeTable

theorem saveTables_synced (s : Sfs) : Synced s.saveTables := by
  unfold saveTables
  refine ⟨?_, fun c hc hc' => ?_, fun c hc hc' => ?_⟩
  · rw [block_writeINodeTable (by omega), if_neg (by omega),
      block_writeFreeBlockList (by omega), if_pos rfl, freeBlockListCache_writeINodeTable,
      freeBlockListCache_writeFreeBlockList]
  · rw [block_writeINodeTable (by omega), if_pos ⟨hc, hc'⟩, iNodesTableCache_writeINodeTable]
  · rw [block_writeINodeTable (by omega), if_neg (by omega),
      block_writeFreeBlockList (by omega), if_neg (by omega),
      block_writeRootDirectory_five (by omega), if_pos ⟨hc, hc'⟩,
      rootDirectoryCache_writeINodeTable, rootDirectoryCache_writeFreeBlockList,
      rootDirectoryCache_writeRootDirectory]

theorem eraseFile_synced (s : Sfs) (f : Fin 300) (fl : Block) (p : Nat) :
    Synced (s.eraseFile f fl p) := by
  unfold eraseFile
  generalize ((({ s with freeBlockListCache := fl }.seek p).setINode f
    INode.unused).setReadWritePointer f (-1)).setFilename f
      (Function.update (s.filename f) 0 0) = t
  exact saveTables_synced t

theorem finishWrite_synced {fileSize : Int} (hfree : s.disk.block 1023 = s.freeBlockListCache)
    (hdir : ∀ c : Nat, 301 ≤ c → c < 306 → s.disk.block c =
      fun j : Fin 1024 => s.rootDirectoryCache.image ((c - 301) * 1024 + j)) :
    Synced (s.finishWrite f fileSize) := by
  unfold finishWrite
  refine ⟨?_, fun c hc hc' => ?_, fun c hc hc' => ?_⟩
  · rw [block_writeINodeTable (by omega), if_neg (by omega)]
    exact hfree
  · rw [block_writeINodeTable (by omega), if_pos ⟨hc, hc'⟩]
    rfl
  · rw [block_writeINodeTable (by omega), if_neg (by omega)]
    exact hdir c hc hc'

/-! ## Calls that keep the disk up to date -/

/-- The calls that leave nothing in the caches that a mount does not find: a new
file gets a slot whose name is saved whole; a write fits below the directory,
and one that is bound to stop at the last pointer has no new pointer to put into
the i-node on the way. -/
def KeepsSaved (s : Sfs) : Call → Prop
  | .fopen fname => ∀ f, badLength (wrap32 fname.length) = false → findName fname s = none →
      findEmpty s = some f → f.val < 146 ∨ f.val = 146 ∧ fname.length ≤ 10
  | .fwrite junk fd buf count => Fits 301 s (.fwrite junk fd buf count) ∧
      ∀ f, Accepts s fd buf count f → 268 < s.blocksToWrite f count →
        (∀ i, s.pointer f (.direct i) ≠ -1) ∧ s.pointer f .indirect ≠ -1
  | _ => True

theorem KeepsSaved.fits (h : KeepsSaved s c) : Fits 301 s c := by
  cases c with
  | fwrite junk fd buf count => exact h.1
  | _ => trivial

theorem Covered.congr (h : Covered s f) (heq : s'.filename f = s.filename f) : Covered s' f := by
  unfold Covered
  rw [heq]
  exact h

theorem Rereads.saved (h : Rereads f s s') (hs : Saved s) : Saved s' where
  toLow := h.sameBlocks.low hs.toLow
  synced := h.synced hs.synced
  size g := by rw [h.iNodes]; exact hs.size g
  covered g hl := by
    rw [Live, h.filename] at hl
    exact (hs.covered g hl).congr (h.filename g)

theorem createFile_saved (hs : Saved s) (hlow : Low (s.createFile f fname))
    (hf : f.val < 146 ∨ f.val = 146 ∧ fname.length ≤ 10) : Saved (s.createFile f fname) where
  toLow := hlow
  synced := createFile_synced hs.synced
  size g := by
    rw [iNodes_createFile]
    split
    · exact ⟨by simp, by simp⟩
    · exact hs.size g
  covered g hl := by
    by_cases hg : g = f
    · subst hg
      refine hf.imp id fun ⟨hg, hlen⟩ => ⟨hg, ?_⟩
      intro i hi
      rw [filename_createFile, if_pos rfl, strncpy_image fname i.isLt]
      exact CString.image_of_ge (by omega)
    · have hname : (s.createFile f fname).filename g = s.filename g := by
        rw [filename_createFile, if_neg hg]
      rw [Live, hname] at hl
      exact (hs.covered g hl).congr hname

theorem saveLocation_saved (hs : Saved s) {l : Int} {n : Nat} (hn : n ≤ 5) :
    Saved (s.saveLocation l n) where
  toLow := (saveLocation_sameBlocks hs.toOwned hs.isolated.indirectApart hn).low hs.toLow
  synced := saveLocation_synced hs.synced hn
  size g := by rw [iNodes_saveLocation]; exact hs.size g
  covered g hl := by
    have hname : (s.saveLocation l n).filename g = s.filename g := by
      unfold saveLocation
      rw [filename_writeRootDirectory, filename_setLocation]
    rw [Live, hname] at hl
    exact (hs.covered g hl).congr hname

theorem eraseFile_saved (hs : Saved s) {fl : Block} {p : Nat}
    (hlow : Low (s.eraseFile f fl p)) : Saved (s.eraseFile f fl p) where
  toLow := hlow
  synced := eraseFile_synced s f fl p
  size g := by
    rw [iNodes_eraseFile]
    split
    · exact ⟨by decide, by decide⟩
    · exact hs.size g
  covered g hl := by
    by_cases hg : g = f
    · subst hg
      rw [Live, filename_eraseFile, if_pos rfl, Function.update_self] at hl
      exact absurd rfl hl
    · have hname : (s.eraseFile f fl p).filename g = s.filename g := by
        rw [filename_eraseFile, if_neg hg]
      rw [Live, hname] at hl
      exact (hs.covered g hl).congr hname

/-! ## Writing -/

/-- A block no pointer of a file can name is not written by its loop. -/
theorem Extends.block_of_low (h : Extends f s s') (hs : Low s') {b : Nat} (hb : b < 2000)
    (hne : b ≠ 1023) (hout : b < 18 ∨ 301 ≤ b) : s'.disk.block b = s.disk.block b := by
  refine h.frame b hb hne ?_
  intro r hr
  have hlow := hs.below f r
  have hlt : b < 18 := by omega
  have hlt' : b < 1024 := by omega
  exact hs.apart f r ⟨b, hlt'⟩ hr (Or.inl hlt)

theorem Extends.directory_saved (h : Extends f s s') (hs : Synced s) (hs' : Low s') (b : Nat)
    (hb : 301 ≤ b) (hb' : b < 306) : s'.disk.block b =
      fun j : Fin 1024 => s'.rootDirectoryCache.image ((b - 301) * 1024 + j) := by
  rw [h.block_of_low hs' (by omega) (by omega) (Or.inr hb), h.directory]
  exact hs.directory b hb hb'

/-- A loop that finds the direct and the indirect pointers in place leaves the
i-node table as it was. -/
theorem Extends.iNodes_eq (h : Extends f s s') (hd : ∀ i, s.pointer f (.direct i) ≠ -1)
    (hi : s.pointer f .indirect ≠ -1) (g : Fin 300) : s'.iNodes g = s.iNodes g := by
  by_cases hg : g = f
  · subst hg
    have hdirect : (s'.iNodes g).directPointers = (s.iNodes g).directPointers :=
      funext fun i => h.keeps (.direct i) (hd i)
    have hind : (s'.iNodes g).indirectPointer = (s.iNodes g).indirectPointer :=
      h.keeps .indirect hi
    have hsize := h.size
    have hlink := h.linkCount
    generalize s'.iNodes g = node' at *
    generalize s.iNodes g = node at *
    cases node
    cases node'
    simp_all
  · exact h.inode_other g hg

theorem finishWrite_saved {n : Nat} {data : Mem} {fileSize : Int} (hs : Saved s)
    (hP : Progress f 0 n data s s') (hlow : Low s') (hsize : Int32Range fileSize) :
    Saved (s'.finishWrite f fileSize) where
  toLow := (finishWrite_sameBlocks hP.owned _).low hlow
  synced := finishWrite_synced (hP.ext.synced hs.synced.freeList)
    (hP.ext.directory_saved hs.synced hlow)
  size g := by
    rw [iNodes_finishWrite]
    split
    · exact hsize
    · next hg => rw [hP.ext.inode_other g hg]; exact hs.size g
  covered g hl := by
    have hname : (s'.finishWrite f fileSize).filename g = s.filename g := by
      rw [filename_finishWrite, hP.ext.filename]
    rw [Live, hname] at hl
    exact (hs.covered g hl).congr hname

/-- Stopping at the last pointer, with the direct and the indirect pointers in
place before. -/
theorem Progress.saved {n : Nat} {data : Mem} (hs : Saved s) (hP : Progress f 0 n data s s')
    (hlow : Low s') (hd : ∀ i, s.pointer f (.direct i) ≠ -1) (hi : s.pointer f .indirect ≠ -1) :
    Saved s' where
  toLow := hlow
  synced :=
    { freeList := hP.ext.synced hs.synced.freeList
      iNodes := by
        intro c hc hc'
        have htable : s'.iNodesTableCache = s.iNodesTableCache := by
          have hnodes : s'.iNodesTableCache.iNodes = s.iNodesTableCache.iNodes :=
            funext fun g => hP.ext.iNodes_eq hd hi g
          have hname := hP.ext.name
          generalize s'.iNodesTableCache = τ' at *
          generalize s.iNodesTableCache = τ at *
          cases τ
          cases τ'
          simp_all
        rw [hP.ext.block_of_low hlow (by omega) (by omega) (Or.inl (by omega)), htable]
        exact hs.synced.iNodes c hc hc'
      directory := hP.ext.directory_saved hs.synced hlow }
  size g := by rw [hP.ext.iNodes_eq hd hi]; exact hs.size g
  covered g hl := by
    rw [Live, hP.ext.filename] at hl
    exact (hs.covered g hl).congr (hP.ext.filename g)

theorem newFileSize_range (hs : Int32Range (s.iNodes f).size) (count : Int) :
    Int32Range (s.newFileSize f count) := by
  unfold newFileSize
  split
  · exact wrap32_range _
  · exact hs

theorem sfsFwrite_saved {buf : Mem} {fd count : Int} (hs : Saved s)
    (hk : KeepsSaved s (.fwrite junk fd buf count))
    (h : sfsFwrite junk fd buf count s = .ok (ret, s')) : Saved s' := by
  rcases sfsFwrite_cases hs.toOwned h with ⟨-, rfl, -⟩ | ⟨f, data, s₀, ha, hload, hout⟩
  · exact hs
  · have hre := loadFileData_rereads hload
    have hsame := hre.sameBlocks
    have hs₀ := hre.saved hs
    have hfit : s₀.missing f 0 (min (s.blocksToWrite f count) 268) ≤ s₀.freeBelow 301 := by
      rw [hsame.missing, hsame.freeBelow]
      exact hk.1 f ha
    obtain ⟨m, s₁, hm, hP, hend⟩ := hout.progress_of_fits hfit (by omega)
    have hlow := hP.low hs₀.toLow (Nat.le_trans (missing_mono hm) hfit)
    rcases hend with ⟨-, -, rfl⟩ | ⟨hlong, -, -, p, rfl⟩
    · exact finishWrite_saved hs₀ hP hlow (newFileSize_range (hs.size f) count)
    · obtain ⟨hd, hi⟩ := hk.2 f ha hlong
      rw [← hsame.pointer] at hd hi
      exact (Rereads.seek f s₁ p).saved (hP.saved hs₀ hlow hd hi)

/-- A call that keeps the disk up to date does. -/
theorem exec_saved (hs : Saved s) (hk : KeepsSaved s c) (h : c.exec s = .ok (ret, s')) :
    Saved s' := by
  have hlow : Low s' := exec_low hs.toLow hk.fits h
  cases c with
  | fopen fname =>
      simp only [Call.exec] at h
      rcases sfsFopen_cases (Except.ok.inj h) with
        ⟨-, rfl⟩ | ⟨f, -, -, -, rfl⟩ | ⟨f, hlen, hname, hempty, -, rfl⟩
      · exact hs
      · exact (Rereads.move f s _).saved hs
      · exact createFile_saved hs hlow (hk f hlen hname hempty)
  | fclose fd =>
      simp only [Call.exec] at h
      rcases sfsFclose_cases (Except.ok.inj h) with ⟨-, rfl⟩ | ⟨f, -, -, -, rfl⟩
      · exact hs
      · exact (Rereads.move f s _).saved hs
  | fseek fd loc =>
      simp only [Call.exec] at h
      rcases sfsFseek_rereads h with rfl | ⟨f, -, rfl⟩
      · exact hs
      · exact (Rereads.move f s _).saved hs
  | fread junk fd count =>
      simp only [Call.exec] at h
      obtain ⟨⟨r, bytes, s₁⟩, hread, h⟩ := ok_bind h
      cases h
      rcases sfsFread_rereads hread with rfl | ⟨f, -, hre⟩
      · exact hs
      · exact hre.saved hs
  | fwrite junk fd buf count => exact sfsFwrite_saved hs hk h
  | getnextfilename fname =>
      rcases hr : sfsGetnextfilename fname s with ⟨r, m, s₁⟩
      simp only [Call.exec, hr] at h
      obtain ⟨-, rfl⟩ := Prod.mk.inj (Except.ok.inj h)
      rcases sfsGetnextfilename_cases hr with rfl | ⟨-, l, n, hn, rfl⟩
      · exact hs
      · exact saveLocation_saved hs hn
  | getfilesize path =>
      simp only [Call.exec] at h
      obtain ⟨-, rfl⟩ := Prod.mk.inj (Except.ok.inj h)
      exact hs
  | remove junk fname =>
      simp only [Call.exec] at h
      rcases sfsRemove_cases hs.toNoSharing h with ⟨-, rfl, -⟩ | ⟨f, fl, p, -, -, -, rfl, -⟩
      · exact hs
      · exact eraseFile_saved hs hlow

theorem Fresh.saved (h : Fresh s) : Saved s where
  toLow := h.low
  synced := h.synced
  size f := by rw [h.iNodes]; exact ⟨by decide, by decide⟩
  covered f hl := absurd (h.names f) hl

/-- The calls that keep the disk up to date, as a system. -/
def keepingSaved : System Sfs (Call × Int) := system.guard fun s x => KeepsSaved s x.1

theorem keepingSaved_saved (h : keepingSaved.Reachable s) : Saved s := by
  refine System.Reachable.invariant (I := Saved) ?_ ?_ h
  · rintro s ⟨junk, s₀, rfl⟩
    exact (mksfs_fresh junk s₀).saved
  · rintro s x s' hs ⟨hk, hstep⟩
    exact exec_saved hs hk hstep

/-- A mount in a new process finds what the process before had. -/
theorem restores_of_keepingSaved (h : keepingSaved.Reachable s) (junk : Mem) :
    Restores s (mksfs 0 junk (zeroed s.disk)) :=
  (keepingSaved_saved h).restores junk

/-- A file of one block is found again. -/
theorem restores_after_new_file :
    ∃ s, keepingSaved.Reachable s ∧ s.Live 0 ∧ s.pointer 0 (.direct 0) ≠ -1 ∧
      Restores s (mksfs 0 (fun _ => 0) (zeroed s.disk)) := by
  have h := formatted_fresh
  have hroom : 1 + 1 ≤ formatted.freeBelow 301 := by
    rw [show 301 = 18 + 283 from rfl, h.freeBelow (by omega)]
    omega
  obtain ⟨t, data, s₀, s₁, hopen, hwrite, hfits, -, hP, hnames⟩ := new_file_steps (n := 1) (b := 65)
    h.owned h.low.isolated.indirectApart (by decide) (fun g => by rw [h.names]; decide)
    h.findEmpty h.pointer (by omega) (by rw [h.freeBelow_all]; omega)
  have hstart : keepingSaved.Reachable formatted := .start ⟨_, _, rfl⟩
  have hslot : KeepsSaved formatted (.fopen (letter 65 (by decide))) := by
    intro f _ _ hf
    have hf0 : f = 0 := Option.some.inj (hf.symm.trans h.findEmpty)
    rw [hf0]
    exact Or.inl (by decide)
  have hr₁ : keepingSaved.Reachable t :=
    hstart.step (a := (.fopen (letter 65 (by decide)), _)) ⟨hslot, hopen⟩
  have hsize : t = formatted.createFile 0 (letter 65 (by decide)) := by
    have hcreate := h.sfsFopen_letter (b := 65) (by decide)
    exact congrArg Prod.snd ((Except.ok.inj hopen).symm.trans hcreate)
  have hwhole : ∀ f, Accepts t ((0 : Fin 300) : Nat) (fun _ => 0) (1 * 1024 : Nat) f →
      268 < t.blocksToWrite f (1 * 1024 : Nat) →
      (∀ i, t.pointer f (.direct i) ≠ -1) ∧ t.pointer f .indirect ≠ -1 := by
    intro f ha hlong
    have hf : f = 0 := ha.eq_of_natCast
    rw [hf, hsize, blocksToWrite_new (createFile_size formatted 0 _)
      (createFile_position _ _ _) (by omega)] at hlong
    omega
  have hr₂ : keepingSaved.Reachable (s₁.finishWrite 0 (1 * 1024 : Nat)) :=
    hr₁.step (a := (.fwrite (fun _ => 0) ((0 : Fin 300) : Nat) (fun _ => 0) (1 * 1024 : Nat),
      (1 * 1024 : Nat))) ⟨⟨hfits 301 hroom, hwhole⟩, hwrite⟩
  refine ⟨_, hr₂, ?_, ?_, restores_of_keepingSaved hr₂ _⟩
  · rw [Live, hnames, if_pos rfl]
    decide
  · rw [(finishWrite_sameBlocks hP.owned _).pointer]
    have hthere := hP.there 0 (by omega) (by omega)
    rwa [blockPointer_eq (by omega), dataRef_direct (by omega)] at hthere

/-! ## A write that stops at the last pointer -/

/-- 268 blocks and a byte for a new file: the write takes 268 blocks, is
refused the next and returns -1; the i-node on disk names none of them. -/
theorem stopped_write_not_saved :
    ¬ ∀ s, system.Reachable s → ∀ junk, Restores s (mksfs 0 junk (zeroed s.disk)) := by
  intro hall
  have h := formatted_fresh
  have hopen := h.sfsFopen_letter (b := 65) (by decide)
  have hlow : Low (formatted.createFile 0 (letter 65 (by decide))) :=
    exec_low (c := .fopen _) h.low trivial (congrArg Except.ok hopen)
  have hsynced : Synced (formatted.createFile 0 (letter 65 (by decide))) :=
    createFile_synced h.synced
  have hsame := h.createFile_sameBlocks (letter 65 (by decide))
  have hsize := createFile_size formatted 0 (letter 65 (by decide))
  have hfdt := createFile_position formatted 0 (letter 65 (by decide))
  have hletter : (formatted.createFile 0 (letter 65 (by decide))).filename 0 0 = 65 :=
    live_createFile rfl
  have hr : system.Reachable (formatted.createFile 0 (letter 65 (by decide))) :=
    formatted_reachable.step (a := (.fopen (letter 65 (by decide)), _)) (congrArg Except.ok hopen)
  have hpointer : ∀ r, (formatted.createFile 0 (letter 65 (by decide))).pointer 0 r = -1 :=
    fun r => by rw [hsame.pointer, h.pointer]
  have hroom : (formatted.createFile 0 (letter 65 (by decide))).freeBelow 301 = 283 := by
    rw [hsame.freeBelow, show 301 = 18 + 283 from rfl, h.freeBelow (by omega)]
  generalize formatted.createFile 0 (letter 65 (by decide)) = u at *
  obtain ⟨count, hcount⟩ : ∃ count : Int, count = 268 * 1024 + 1 := ⟨_, rfl⟩
  obtain ⟨ret, v, hwrite⟩ := sfsFwrite_ok (s := u) (f := 0) (fun _ => 0) (fun _ => 0) count
    (by omega) (by omega) (by omega) (by omega) (by omega)
  have hblocks : u.blocksToWrite 0 count = 269 := by
    unfold blocksToWrite
    rw [newFileSize_eq (by omega) (by omega) (by omega), numBlocksForFile_eq (by omega)]
    omega
  rcases sfsFwrite_cases hlow.toOwned hwrite with ⟨-, -, hrefused⟩ | ⟨f, data, u₀, ha, hload, hout⟩
  · refine hrefused 0 ⟨by omega, slot?_natCast 0, by omega, ?_⟩
    rw [strnlen_zeros]
    omega
  · have hf : f = 0 := ha.eq_of_natCast
    subst hf
    have hre := loadFileData_rereads hload
    have hsame₀ := hre.sameBlocks
    rw [hblocks] at hout
    have hfit : u₀.missing 0 0 (min 269 268) ≤ u₀.freeBelow 301 := by
      rw [hsame₀.missing, hsame₀.freeBelow, missing_of_no_blocks hpointer, hroom, if_pos (by omega)]
      omega
    obtain ⟨m, u₁, hm, hP, hend⟩ := hout.progress_of_fits hfit (by omega)
    have hlow₁ := hP.low (hsame₀.low hlow) (Nat.le_trans (missing_mono hm) hfit)
    rcases hend with ⟨hm269, -, -⟩ | ⟨-, hm268, hret, p, rfl⟩
    · omega
    · have hrv : system.Reachable (u₁.seek p) :=
        hr.step (a := (.fwrite (fun _ => 0) ((0 : Fin 300) : Nat) (fun _ => 0) count, ret))
          ((exec_fwrite _ _ _ _ u).trans hwrite)
      have hrest := hall _ hrv (fun _ => 0)
      have hm := mksfs_mounted (fun _ => 0) (u₁.seek p).disk
      generalize mksfs 0 (fun _ => 0) (zeroed (u₁.seek p).disk) = t at hrest hm
      -- The i-node in the cache has a first block, the one on disk has none.
      have hthere := hP.there 0 (by omega) (by omega)
      rw [blockPointer_eq (by omega), dataRef_direct (by omega)] at hthere
      have hlive : (u₁.seek p).Live 0 := by
        show u₁.filename 0 0 ≠ 0
        rw [hP.ext.filename, hre.filename, hletter]
        decide
      have hfile := hrest.file 0 hlive
      have htable : ∀ c : Nat, 1 ≤ c → c < 13 → (u₁.seek p).disk.block c =
          fun j : Fin 1024 => u.iNodesTableCache.image ((c - 1) * 1024 + j) := by
        intro c hc hc'
        rw [block_seek, hP.ext.block_of_low hlow₁ (by omega) (by omega) (Or.inl (by omega)),
          ← hre.iNodesTableCache]
        exact (hre.synced hsynced).iNodes c hc hc'
      have hsaved := hm.sameFile htable (f := 0) (by decide)
        (hlow.toOwned.storable (by rw [hsize]; exact ⟨by decide, by decide⟩))
      have hnone : (t.iNodes 0).directPointers 0 = -1 := by
        rw [hsaved.directPointers]
        exact hpointer (.direct 0)
      rw [hfile.directPointers] at hnone
      exact hthere hnone

end OsConcepts.Sfs
