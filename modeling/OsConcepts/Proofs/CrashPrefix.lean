import OsConcepts.Proofs.CrashWrite
import OsConcepts.Proofs.Touches
import OsConcepts.Proofs.WriteFrame
import OsConcepts.Proofs.Remount

/-!
# Stopping a call between two blocks

A call that is stopped after some of its block writes leaves the tables half
saved. Opening, listing and writing are ordered so that no stored i-node refers
to a block that is marked free, wherever they are stopped. Two things are not.
`sfs_remove` saves the free list before the i-node table, so that for a while the
i-node on disk still refers to the blocks it has given back. And a write that
runs dry behind block 1022 sends its stray block of ones into the free list,
which marks every block free. `Ordered` is the absence of both, told from the
state a call starts in.
-/

namespace OsConcepts.Sfs

open OsConcepts OsConcepts.Disk

variable {s s' s₁ t : Sfs} {f g : Fin 300} {junk buf : Mem} {fd count ret l : Int} {c : Call}
  {fname : CString} {n : Nat}

/-! ## Stretches of a call -/

theorem RunsSafely.refl (s : Sfs) : RunsSafely s s := fun hs => ⟨hs, hs.refl_safely⟩

/-- A change to the caches that leaves every pointer. -/
theorem RunsSafely.of_caches (hdisk : s'.disk = s.disk)
    (hd : ∀ g, (s'.iNodes g).directPointers = (s.iNodes g).directPointers)
    (hi : ∀ g, (s'.iNodes g).indirectPointer = (s.iNodes g).indirectPointer)
    (hf : s'.freeBlockListCache = s.freeBlockListCache) : RunsSafely s s' := by
  intro hs
  have hsame : SameBlocks s s' := .of_frame hs.toNoSharing hd hi (fun _ _ _ => by rw [hdisk]) hf
  have hs' : Trailing s' := hs.of_sameBlocks hsame (by rw [hdisk]) fun _ _ _ => by rw [hdisk]
  refine ⟨hs', ?_⟩
  rw [hdisk]
  exact hs.refl_safely

theorem setReadWritePointer_runsSafely (s : Sfs) (f : Fin 300) (p : Int) :
    RunsSafely s (s.setReadWritePointer f p) := .of_caches (by simp) (by simp) (by simp) (by simp)

theorem setFilename_runsSafely (s : Sfs) (f : Fin 300) (name : Fin 35 → Byte) :
    RunsSafely s (s.setFilename f name) := .of_caches (by simp) (by simp) (by simp) (by simp)

theorem setSize_runsSafely (s : Sfs) (f : Fin 300) (size : Int) :
    RunsSafely s (s.setINode f { s.iNodes f with size := size }) := by
  refine .of_caches (by simp) (fun g => ?_) (fun g => ?_) (by simp)
  · rw [iNodes_setINode]
    split
    · next h => rw [h]
    · rfl
  · rw [iNodes_setINode]
    split
    · next h => rw [h]
    · rfl

theorem Rereads.runsSafely (h : Rereads f s s') : RunsSafely s s' := by
  obtain ⟨p, q, rfl⟩ := h
  exact RunsSafely.trans (fun hs => ⟨hs.seek p, hs.seek_safely p⟩)
    (setReadWritePointer_runsSafely _ f q)

/-- A transfer after any part of which the tables are in order. -/
theorem Trailing.writeBlocks_safely {a : Nat} {m : Mem} (h : a + n ≤ 2000)
    (hP : ∀ i : Nat, i ≤ n → Trailing (s.writeBlocks a i m)) :
    Trailing (s.writeBlocks a n m) ∧ Safely NoDangling s.disk (s.writeBlocks a n m).disk := by
  refine ⟨hP n (Nat.le_refl n), ?_⟩
  rw [disk_writeBlocks]
  refine Safely.writeBlocks (by decide) disk_size_lt h ?_
  intro i hi
  rw [← disk_writeBlocks]
  exact (hP i hi).noDangling

theorem writeINodeTable_runsSafely (s : Sfs) : RunsSafely s s.writeINodeTable := fun hs =>
  Trailing.writeBlocks_safely (a := 1) (n := 12) (by omega) fun _ hi =>
    hs.writeTable hs.toNoSharing (fun _ _ _ => Or.inr rfl) hi

theorem writeRootDirectory_runsSafely (hd : IndirectApart s) (hn : n ≤ 5) :
    RunsSafely s (s.writeRootDirectory n) := fun hs =>
  Trailing.writeBlocks_safely (a := 301) (by omega) fun _ hi =>
    hs.writeDirectory hd _ (hi.trans hn)

theorem IndirectApart.congr (h : IndirectApart s)
    (hi : ∀ g, (s'.iNodes g).indirectPointer = (s.iNodes g).indirectPointer) :
    IndirectApart s' := fun g b hb => h g b ((hi g).symm.trans hb)

/-! ## The calls that are ordered -/

theorem createFile_runsSafely (hd : IndirectApart s) (f : Fin 300) (fname : CString) :
    RunsSafely s (s.createFile f fname) := by
  have hfields := (((setReadWritePointer_runsSafely s f 0).trans
    (setSize_runsSafely _ f 0)).trans (setFilename_runsSafely _ f fun i =>
      strncpy fname.image 35 i)).trans (writeINodeTable_runsSafely _)
  refine hfields.trans (writeRootDirectory_runsSafely (n := 5) (hd.congr fun g => ?_) (by omega))
  rw [iNodes_writeINodeTable, iNodes_setFilename, iNodes_setINode]
  split
  · next h => rw [h, iNodes_setReadWritePointer]
  · rw [iNodes_setReadWritePointer]

theorem saveLocation_runsSafely (hd : IndirectApart s) (hn : n ≤ 5) :
    RunsSafely s (s.saveLocation l n) := by
  have hmove : RunsSafely s (s.setLocation l) := .of_caches (by simp) (by simp) (by simp) (by simp)
  exact hmove.trans (writeRootDirectory_runsSafely (hd.congr (by simp)) hn)

theorem finishWrite_runsSafely (s : Sfs) (f : Fin 300) (fileSize : Int) :
    RunsSafely s (s.finishWrite f fileSize) :=
  ((setReadWritePointer_runsSafely s f fileSize).trans (setSize_runsSafely _ f fileSize)).trans
    (writeINodeTable_runsSafely _)

/-! ## `sfs_fwrite` -/

/-- A write is safe, unless it runs dry: then it is safe up to the stray write. -/
theorem Trailing.sfsFwrite_safely (hs : Trailing s)
    (h : sfsFwrite junk fd buf count s = .ok (ret, s')) :
    Safely NoDangling s.disk s'.disk ∧ (∀ f, Accepts s fd buf count f → ¬ RunsDry s f count) ∨
    ∃ f s₁ b, Accepts s fd buf count f ∧ RunsDry s f count ∧ Trailing s₁ ∧
      Safely NoDangling s.disk s₁.disk ∧
      (∀ g r, r.InNode → (stored s₁.disk).pointer g r = (stored s.disk).pointer g r) ∧
      LastDirect s f b ∧ b.val + 1 < 1024 ∧ s₁.disk.pos = (b.val + 1) * 1024 ∧
      s' = s₁.strayWrite := by
  rcases sfsFwrite_steps h with ⟨-, rfl, hno⟩ | ⟨f, data, s₀, s₂, done, ha, hload, hloop, hret⟩
  · exact Or.inl ⟨hs.refl_safely, fun f ha => absurd ha (hno f)⟩
  · have hre := loadFileData_rereads hload
    have hsame := hre.sameBlocks
    have ht := Tracks.start s₀ f
    rw [hre.iNodes] at ht
    obtain ⟨hs₀, hsafe₀⟩ := hre.runsSafely hs
    obtain ⟨m, s₁, hm, hP, hs₁, hsafe₁, hend⟩ := hs₀.writeLoop_safely ht hloop
    rw [Nat.zero_add] at hend
    have hsafe := hsafe₀.trans hsafe₁
    have hone : ∀ g, Accepts s fd buf count g → g = f := fun g hg => ha.unique hg
    have hdry : ∀ g, Accepts s fd buf count g → RunsDry s g count →
        12 < s.blocksToWrite f count ∧ s₀.pointer f .indirect = -1 ∧
          s₀.freeBelow 1024 = s₀.missing f 0 12 := by
      intro g hg h
      rw [hone g hg] at h
      rw [hsame.pointer, hsame.freeBelow, hsame.missing]
      exact ⟨h.past, h.indirect, h.dry⟩
    rcases hend with ⟨rfl, rfl, rfl⟩ | ⟨rfl, hlt, hstop, hrest⟩
    · rcases hret with ⟨-, -, rfl⟩ | ⟨hfalse, -⟩
      · obtain ⟨-, hsafe₃⟩ := finishWrite_runsSafely s₂ f (s.newFileSize f count) hs₁
        refine Or.inl ⟨hsafe.trans hsafe₃, ?_⟩
        intro g hg h
        obtain ⟨hpast, hrun⟩ := hdry g hg h
        exact hP.not_dry hpast hrun
      · cases hfalse
    · rcases hret with ⟨htrue, -⟩ | ⟨-, -, rfl⟩
      · cases htrue
      · by_cases hstray : IsDry s₁ f m
        · obtain ⟨rfl, hind, hfree⟩ := hstray
          have hind₀ : s₀.pointer f .indirect = -1 := by rw [← hP.indirect (by omega), hind]
          have hcount : s₀.freeBelow 1024 = s₀.missing f 0 12 := by
            have := hP.count 1024
            have := hP.enough
            omega
          obtain ⟨b, hb, hblt, hpos⟩ := hP.lastDirect hcount
          rw [hsame.pointer] at hind₀
          rw [hsame.freeBelow, hsame.missing] at hcount
          refine Or.inr ⟨f, s₁, b, ha, ⟨hlt, hind₀, hcount⟩, hs₁, hsafe, fun g r hr => ?_,
            hsame.lastDirect.mp hb, hblt, hpos, hstop.eq_strayWrite hind hfree⟩
          refine (pointer_stored_of_table (d := s₀.disk) hr fun c => hP.ext.table hP.owned).trans ?_
          obtain ⟨p, q, rfl⟩ := hre
          exact pointer_stored_of_table hr fun _ _ _ => rfl
        · refine Or.inl ⟨hsafe.trans (hrest hstray), ?_⟩
          intro g hg h
          exact hstop.not_dry hP hstray (hdry g hg h).2

/-- Where the stray write goes, unless that is the free list's block, nothing
stored begins to refer to a free block. -/
theorem Trailing.strayWrite_noDangling {b : Fin 1024} (hs : Trailing s) (hres : ¬ Reserved b)
    (hpos : s.disk.pos = (b.val + 1) * 1024) (hlt : b.val + 1 < 1023) :
    NoDangling s.strayWrite.disk.file := by
  unfold Reserved at hres
  refine hs.noDangling_fill (x := fun _ => 255) (L := b.val + 1) (by omega)
    (by unfold Reserved; omega) (fun c hc => block_strayWrite hpos hc) ?_
  intro g _ j b' hb'
  have hones : IndirectBlock.ofImage (Block.image fun _ => 255) j = -1 := by
    have hj := j.isLt
    refine memInt_ones ?_
    intro i hi
    unfold Block.image
    rw [dif_pos (by omega)]
  omega

/-- In the free list's block it marks everything free. -/
theorem strayWrite_noDangling_1023 (hs : Trailing s) (hpos : s.disk.pos = 1023 * 1024) :
    NoDangling s.strayWrite.disk.file ↔
      ∀ g r, r.InNode → (stored s.disk).pointer g r = -1 := by
  have hblock : ∀ c : Nat, c < 2000 → s.strayWrite.disk.block c =
      if c = 1023 then fun _ => 255 else s.disk.block c := fun c hc => block_strayWrite hpos hc
  have hnode : ∀ g r, r.InNode →
      (stored s.strayWrite.disk).pointer g r = (stored s.disk).pointer g r := fun g r hr =>
    pointer_stored_of_table hr fun c _ hc => by rw [hblock c (by omega), if_neg (by omega)]
  have hfree : ∀ b, ¬ (stored s.strayWrite.disk).ledger.busy b := by
    intro b hb
    have hzero : s.strayWrite.disk.block 1023 b = 0 := hb
    rw [hblock 1023 (by omega), if_pos rfl] at hzero
    cases hzero
  constructor
  · intro h g r hr
    by_contra hne
    have hcached := (hs.node g r hr).resolve_left hne
    obtain ⟨b, hb, -⟩ := hs.nat_of_pointer (by rwa [← hcached])
    exact hfree b (h g r b ((hnode g r hr).trans (hcached.trans hb)))
  · intro hnone g r b hb
    have hb' : (stored s.strayWrite.disk).pointer g r = (b : Nat) := hb
    cases r with
    | direct i =>
        rw [hnode g _ (direct_inNode i), hnone g _ (direct_inNode i)] at hb'
        omega
    | indirect =>
        rw [hnode g _ indirect_inNode, hnone g _ indirect_inNode] at hb'
        omega
    | entry j =>
        rw [pointer_stored_none j
          ((hnode g _ indirect_inNode).trans (hnone g _ indirect_inNode))] at hb'
        omega

theorem disk_strayWrite (s : Sfs) :
    s.strayWrite.disk = s.disk.fwrite (IndirectBlock.image fun _ => -1) := by
  rw [strayWrite, disk_writeBlocks, Disk.writeBlocks_neg (by decide) (by decide) (by decide)]

theorem Owned.lastDirect_not_reserved (hs : Owned s) {b : Fin 1024} (hb : LastDirect s f b) :
    ¬ Reserved b := by
  rcases hb with hb | ⟨-, hfree, -⟩
  · exact hs.apart f _ b hb
  · exact hs.free_not_reserved fun hbusy => by
      have hzero : s.freeBlockListCache b = 0 := hbusy
      simp [freeCell, hzero] at hfree

/-! ## `sfs_remove` -/

/-- The three transfers of a removal. -/
theorem disk_eraseFile (s : Sfs) (f : Fin 300) (fl : Block) (p : Nat) :
    (s.eraseFile f fl p).disk =
      ((((s.seek p).writeBlocks 301 5 (s.eraseFile f fl p).rootDirectoryCache.image).writeBlocks
        1023 1 fl.image).writeBlocks 1 12 (s.eraseFile f fl p).iNodesTableCache.image).disk := by
  unfold eraseFile
  generalize ht : ((({ s with freeBlockListCache := fl }.seek p).setINode f
    INode.unused).setReadWritePointer f (-1)).setFilename f
      (Function.update (s.filename f) 0 0) = t
  have hdisk : t.disk = (s.seek p).disk := by
    rw [← ht, disk_setFilename, disk_setReadWritePointer, disk_setINode]
    rfl
  have hlist : t.freeBlockListCache = fl := by
    rw [← ht, freeBlockListCache_setFilename, freeBlockListCache_setReadWritePointer,
      freeBlockListCache_setINode, freeBlockListCache_seek]
  rw [writeINodeTable, writeFreeBlockList, writeRootDirectory]
  simp only [disk_writeBlocks, hdisk, freeBlockListCache_writeBlocks, hlist,
    iNodesTableCache_writeBlocks, rootDirectoryCache_writeBlocks]

/-- A file without data blocks is removed without changing the free list. -/
theorem eraseFile_safely (hs : Trailing s) (hd : IndirectApart s) {fl : Block} {p : Nat}
    (hfl : Released (s.ReleasedBy f) s.freeBlockListCache fl)
    (hno : ∀ b, ¬ s.ReleasedBy f b) : Safely NoDangling s.disk (s.eraseFile f fl p).disk := by
  have hsame : fl = s.freeBlockListCache := funext fun b => (hfl b).2 (hno b)
  have herased : NoSharing (s.eraseFile f fl p) := (eraseFile_owned hs.toOwned hd hfl).toNoSharing
  have hpointer : ∀ g r, r.InNode → (s.eraseFile f fl p).pointer g r = -1 ∨
      (s.eraseFile f fl p).pointer g r = s.pointer g r := by
    intro g r _
    by_cases hg : g = f
    · rw [hg]
      exact Or.inl (pointer_eraseFile_self r)
    · exact Or.inr (congrFun (pointer_eraseFile_other hs.toOwned hd hg) r)
  rw [disk_eraseFile, hsame]
  rw [hsame] at herased hpointer
  generalize s.eraseFile f s.freeBlockListCache p = t at herased hpointer ⊢
  obtain ⟨h₁, hsafe₁⟩ := Trailing.writeBlocks_safely (a := 301) (n := 5) (s := s.seek p)
    (m := t.rootDirectoryCache.image) (by omega) fun i hi =>
      (hs.seek p).writeDirectory hd _ hi
  have h₂ := h₁.writeFreeBlockList
  have hsafe₂ := h₁.writeBlock_safely (c := 1023) (by omega) h₂.noDangling
  obtain ⟨-, hsafe₃⟩ := Trailing.writeBlocks_safely (a := 1) (n := 12) (by omega) fun i hi =>
    h₂.writeTable (t := t) herased (fun g r hr => (hpointer g r hr).imp_right fun h =>
      h.trans (pointer_of_iNodes hr (by simp)).symm) hi
  exact (((hs.seek_safely p).trans hsafe₁).trans hsafe₂).trans hsafe₃

theorem issues_sfs_writeBlocks (s : Sfs) (a n : Int) (m : Mem) :
    ∃ ws, Issues ws s.disk (s.writeBlocks a n m).disk := issues_writeBlocks s.disk a n m

/-- Between the free list and the i-node table, the i-node on disk refers to the
blocks that have been given back. -/
theorem eraseFile_dangles (hs : Owned s) (hsync : Synced s) (hd : IndirectApart s)
    (hf : f.val < 204) {fl : Block} {p : Nat} {b : Fin 1024}
    (hfl : Released (s.ReleasedBy f) s.freeBlockListCache fl) (hb : s.ReleasedBy f b) :
    ∃ n, ¬ NoDangling (stoppedAt s.disk (s.eraseFile f fl p).disk n) := by
  have hblock : ∀ (m : Mem) (c : Nat), c < 2000 →
      (((s.seek p).writeBlocks 301 5 m).writeBlocks 1023 1 fl.image).disk.block c =
        if c = 1023 then fl
        else if 301 ≤ c ∧ c < 306 then fun j : Fin 1024 => m ((c - 301) * 1024 + j)
        else s.disk.block c := by
    intro m c hc
    have hlist := block_writeBlock (s := (s.seek p).writeBlocks 301 5 m) (m := fl.image)
      (b := 1023) (by omega) hc
    have hdir := block_writeBlocks (s := s.seek p) (m := m) (a := 301) (n := 5) (by omega) hc
    rw [Block.ofImage_image] at hlist
    exact hlist.trans (by rw [← block_seek s p c]; exact congrArg _ hdir)
  rw [disk_eraseFile]
  generalize (s.eraseFile f fl p).rootDirectoryCache.image = m
  generalize (s.eraseFile f fl p).iNodesTableCache.image = m'
  have hblock := hblock m
  obtain ⟨ws₁, h₁⟩ := issues_sfs_writeBlocks (s.seek p) 301 5 m
  obtain ⟨ws₂, h₂⟩ := issues_sfs_writeBlocks ((s.seek p).writeBlocks 301 5 m) 1023 1 fl.image
  obtain ⟨ws₃, h₃⟩ := issues_sfs_writeBlocks
    (((s.seek p).writeBlocks 301 5 m).writeBlocks 1023 1 fl.image) 1 12 m'
  have hissued := ((Issues.moveTo s.disk p).trans h₁).trans h₂
  refine ⟨([] ++ ws₁ ++ ws₂).length, ?_⟩
  rw [hissued.stoppedAt h₃]
  intro hno
  generalize ((s.seek p).writeBlocks 301 5 m).writeBlocks 1023 1 fl.image = t at hblock hno
  have hstored : (stored t.disk).pointer f = (stored s.disk).pointer f := by
    have htable : ∀ c : Nat, 1 ≤ c → c < 13 → t.disk.block c = s.disk.block c := by
      intro c _ hc
      rw [hblock c (by omega), if_neg (by omega), if_neg (by omega)]
    refine pointer_stored_of_blocks htable ?_
    intro hne
    rw [hsync.pointer_stored hs hf .indirect] at hne ⊢
    obtain ⟨a, ha, -⟩ := hs.nat_of_pointer hne
    have hlt := a.isLt
    have hdir := hd f a ha
    have hres := hs.indirect_not_reserved ha
    unfold DirectoryBlock at hdir
    unfold Reserved at hres
    rw [ha, Int.toNat_natCast, hblock a (by omega), if_neg (by omega), if_neg (by omega)]
  have hfree := (hfl b).1 hb
  obtain ⟨r, -, hr⟩ := hb
  have hbusy : t.disk.block 1023 b = 0 := hno f r b (by
    show (stored t.disk).pointer f r = (b : Nat)
    rw [hstored, hsync.pointer_stored hs hf, hr])
  rw [hblock 1023 (by omega), if_pos rfl, hfree] at hbusy
  cases hbusy

/-! ## Every call -/

/-- The tables are saved, the names of the files in use lie in the blocks of the
directory, and those blocks are marked occupied. -/
structure TablesSaved (s : Sfs) : Prop extends Isolated s where
  synced : Synced s
  directoryBusy : ∀ b : Fin 1024, DirectoryBlock b → s.ledger.busy b
  low : ∀ f, s.Live f → f.val < 146

/-- The call gives back no block, and it does not run dry behind block 1022 while
an i-node on disk refers to a block. -/
def Ordered (s : Sfs) : Call → Prop
  | .remove _ fname => badLength (wrap32 fname.length) = false →
      ∀ f, findName fname s = some f → ∀ b, ¬ s.ReleasedBy f b
  | .fwrite _ fd buf count => ∀ f, Accepts s fd buf count f → RunsDry s f count →
      LastDirect s f 1022 → ∀ g r, (stored s.disk).pointer g r = -1
  | _ => True

/-- What is safe is safe wherever it is stopped. -/
theorem RunsSafely.stoppedAt (h : RunsSafely s s') (hs : TablesSaved s) (n : Nat) :
    NoDangling (stoppedAt s.disk s'.disk n) :=
  (h (hs.synced.trailing hs.toOwned)).2.stoppedAt n

theorem sfsFwrite_noDangling_iff (hs : Trailing s)
    (h : sfsFwrite junk fd buf count s = .ok (ret, s')) :
    (∀ n, NoDangling (stoppedAt s.disk s'.disk n)) ↔ Ordered s (.fwrite junk fd buf count) := by
  rcases hs.sfsFwrite_safely h with
    ⟨hsafe, hno⟩ | ⟨f, s₁, b, ha, hdry, hs₁, hsafe, hstored, hb, hlt, hpos, rfl⟩
  · exact iff_of_true (fun n => hsafe.stoppedAt n) fun f ha hdry => absurd hdry (hno f ha)
  · have hres := hs.lastDirect_not_reserved hb
    have hstray : NoDangling s₁.strayWrite.disk.file →
        Safely NoDangling s.disk s₁.strayWrite.disk := by
        intro hno
        rw [disk_strayWrite] at hno ⊢
        exact hsafe.trans (.fwrite hsafe.last hno)
    have hone : ∀ g, Accepts s fd buf count g → g = f := fun g hg => ha.unique hg
    by_cases h1022 : b.val = 1022
    · have hb' : b = 1022 := Fin.ext h1022
      have hiff := strayWrite_noDangling_1023 hs₁ (by rw [hpos, h1022])
      constructor
      · intro hall g hg _ _ g' r
        obtain ⟨ws, hws, -⟩ := hsafe
        have hissued : Issues (ws ++ [(s₁.disk.pos, IndirectBlock.image fun _ => -1)]) s.disk
            s₁.strayWrite.disk := by
          rw [disk_strayWrite]
          exact hws.trans (.fwrite _ _)
        have hlast := hall (ws ++ [(s₁.disk.pos, IndirectBlock.image fun _ => -1)]).length
        rw [hissued.stoppedAt (.refl _)] at hlast
        have hnode : ∀ r, r.InNode → (stored s.disk).pointer g' r = -1 := by
          intro r hr
          rw [← hstored g' r hr]
          exact hiff.mp hlast g' r hr
        cases r with
        | direct i => exact hnode _ (direct_inNode i)
        | indirect => exact hnode _ indirect_inNode
        | entry j => exact pointer_stored_none j (hnode _ indirect_inNode)
      · intro hord n
        refine (hstray (hiff.mpr fun g r hr => ?_)).stoppedAt n
        rw [hstored g r hr]
        exact hord f ha hdry (hb' ▸ hb) g r
    · refine iff_of_true (fun n => (hstray ?_).stoppedAt n) fun g hg _ hlast => ?_
      · exact hs₁.strayWrite_noDangling hres hpos (by omega)
      · rw [hone g hg] at hlast
        exact absurd (congrArg Fin.val (hb.unique hlast)) h1022

theorem sfsRemove_noDangling_iff (hs : TablesSaved s)
    (h : sfsRemove junk fname s = .ok (ret, s')) :
    (∀ n, NoDangling (stoppedAt s.disk s'.disk n)) ↔ Ordered s (.remove junk fname) := by
  have htrail := hs.synced.trailing hs.toOwned
  have hd := hs.indirectApart
  rcases sfsRemove_cases hs.toNoSharing h with
    ⟨-, rfl, hno⟩ | ⟨f, fl, p, hlen, hname, -, rfl, hfl⟩
  · refine iff_of_true (fun n => htrail.refl_safely.stoppedAt n) ?_
    intro hlen f hname
    exact absurd ⟨hlen, by rw [hname]; rfl⟩ hno
  · constructor
    · intro hall _ g hg b hb
      rw [hname] at hg
      cases hg
      have hlow := hs.low f (live_of_findName hlen hname)
      obtain ⟨n, hn⟩ := eraseFile_dangles (p := p) hs.toOwned hs.synced hd (by omega) hfl hb
      exact hn (hall n)
    · intro hord n
      exact (eraseFile_safely htrail hd hfl (hord hlen f hname)).stoppedAt n

/-- Wherever a call is stopped, no i-node on disk refers to a block that is free
on disk, if and only if the call is ordered. -/
theorem stopped_noDangling_iff (hs : TablesSaved s) (h : c.exec s = .ok (ret, s')) :
    (∀ n, NoDangling (stoppedAt s.disk s'.disk n)) ↔ Ordered s c := by
  have htrail := hs.synced.trailing hs.toOwned
  have hd := hs.indirectApart
  have hsafe : RunsSafely s s' → Ordered s c →
      ((∀ n, NoDangling (stoppedAt s.disk s'.disk n)) ↔ Ordered s c) := fun hrun hord =>
    iff_of_true (hrun.stoppedAt hs) hord
  cases exec_effect h with
  | opened hlen hname => exact hsafe (setReadWritePointer_runsSafely s _ _) trivial
  | created hlen hname hempty => exact hsafe (createFile_runsSafely hd _ _) trivial
  | notOpened => exact hsafe (.refl s) trivial
  | closed hslot hopen => exact hsafe (setReadWritePointer_runsSafely s _ _) trivial
  | notClosed => exact hsafe (.refl s) trivial
  | sought hmove =>
      rcases hmove with rfl | ⟨f, -, -, hre⟩
      · exact hsafe (.refl _) trivial
      · exact hsafe hre.runsSafely trivial
  | read hmove =>
      rcases hmove with rfl | ⟨f, -, -, hre⟩
      · exact hsafe (.refl _) trivial
      · exact hsafe hre.runsSafely trivial
  | written hwrite => exact sfsFwrite_noDangling_iff htrail hwrite
  | listed hn => exact hsafe (saveLocation_runsSafely hd hn) trivial
  | notListed => exact hsafe (.refl s) trivial
  | sized => exact hsafe (.refl s) trivial
  | removed hlen hname => exact sfsRemove_noDangling_iff hs h
  | notRemoved => exact sfsRemove_noDangling_iff hs h

/-! ## A disk with two files -/

/-- The full disk, saved. -/
theorem fullDisk_tablesSaved : TablesSaved fullDisk.saveTables := by
  have hsame : SameBlocks fullDisk fullDisk.saveTables := by
    refine .of_frame fullDisk_intact.toNoSharing (by simp [saveTables]) (by simp [saveTables])
      (fun g b hb => ?_) (by simp [saveTables])
    rw [fullDisk_indirect] at hb
    omega
  exact
    { toOwned := hsame.owned fullDisk_intact.toOwned
      directory := fun f r b hb => fullDisk_intact.directory f r b (by rwa [hsame.pointer] at hb)
      synced := saveTables_synced fullDisk
      directoryBusy := fun _ _ => rfl
      low := by
        intro f hl
        rcases fullDisk_live hl with rfl | rfl <;> decide }

/-- Opening a third file on it can be stopped anywhere. -/
theorem stopped_noDangling_new_file : TablesSaved fullDisk.saveTables ∧
    ∀ n, NoDangling (stoppedAt fullDisk.saveTables.disk
      (sfsFopen (letter 67 (by decide)) fullDisk.saveTables).2.disk n) := by
  have hs := fullDisk_tablesSaved
  refine ⟨hs, ?_⟩
  generalize fullDisk.saveTables = u at hs ⊢
  have hopen := exec_fopen (letter 67 (by decide)) u
  rw [← Prod.mk.eta (p := sfsFopen (letter 67 (by decide)) u)] at hopen
  exact (stopped_noDangling_iff hs hopen).mpr trivial

/-- Removing the first one cannot. -/
theorem removal_dangles :
    ¬ ∀ (s : Sfs) (c : Call) (ret : Int) (s' : Sfs), TablesSaved s → c.exec s = .ok (ret, s') →
      ∀ n, NoDangling (stoppedAt s.disk s'.disk n) := by
  intro hall
  have hs := fullDisk_tablesSaved
  have hlen : badLength (wrap32 (letter 65 (by decide)).length) = false :=
    badLength_letter (b := 65) (by decide)
  have hname : findName (letter 65 (by decide)) fullDisk.saveTables = some 0 := by
    refine Fin.find?_eq_some_iff.mpr ⟨strcmpEq_iff.mpr ⟨fun i hi => ?_, rfl⟩, fun j hj => ?_⟩
    · have hi0 : i = 0 := Nat.lt_one_iff.mp hi
      subst hi0
      rfl
    · exact absurd hj (Nat.not_lt_zero _)
  have hfirst : ∃ b : Fin 1024, fullDisk.saveTables.pointer 0 (.direct 0) = (b : Nat) :=
    ⟨18, (fullDisk_direct 0 0).trans (by rw [if_pos rfl]; rfl)⟩
  generalize fullDisk.saveTables = u at hs hname hfirst
  obtain ⟨⟨ret, s'⟩, hrem⟩ := sfsRemove_ok (fun _ => 0) (letter 65 (by decide)) hs.toNoSharing
  have hexec := (exec_remove (fun _ => 0) (letter 65 (by decide)) u).trans hrem
  have hord := (sfsRemove_noDangling_iff hs hrem).mp (hall u _ ret s' hs hexec)
  obtain ⟨b, hb⟩ := hfirst
  exact hord hlen 0 hname b ⟨.direct 0, by simp, hb⟩

end OsConcepts.Sfs
