import OsConcepts.Proofs.SfsWrite

/-!
# What the other calls do

A spec for each call besides `sfs_fwrite`: which state it leaves, and what that
means for the pointers and the free list. Calls that save the directory write
the blocks 301 to 305 whatever the free list says about them, so their specs
ask that no indirect block lies there (`IndirectApart`).
-/

namespace OsConcepts.Sfs

open OsConcepts

variable {s s' : Sfs} {f g : Fin 300} {junk : Mem} {fd count loc ret : Int}
  {fname : CString}

/-- No indirect block lies where the directory is saved. -/
def IndirectApart (s : Sfs) : Prop :=
  ∀ g (c : Fin 1024), s.pointer g .indirect = (c : Nat) → ¬ DirectoryBlock c

theorem Isolated.indirectApart (h : Isolated s) : IndirectApart s :=
  fun g c hc => h.directory g .indirect c hc

/-! ## Fields the saving of a table leaves alone -/

@[simp] theorem iNodes_writeRootDirectory (n : Int) (s : Sfs) (g : Fin 300) :
    (s.writeRootDirectory n).iNodes g = s.iNodes g := (rfl)

@[simp] theorem iNodesTableCache_writeRootDirectory (n : Int) (s : Sfs) :
    (s.writeRootDirectory n).iNodesTableCache = s.iNodesTableCache := (rfl)

@[simp] theorem freeBlockListCache_writeRootDirectory (n : Int) (s : Sfs) :
    (s.writeRootDirectory n).freeBlockListCache = s.freeBlockListCache := (rfl)

@[simp] theorem openFDTCache_writeRootDirectory (n : Int) (s : Sfs) :
    (s.writeRootDirectory n).openFDTCache = s.openFDTCache := (rfl)

@[simp] theorem rootDirectoryCache_writeRootDirectory (n : Int) (s : Sfs) :
    (s.writeRootDirectory n).rootDirectoryCache = s.rootDirectoryCache := (rfl)

@[simp] theorem iNodesTableCache_writeINodeTable (s : Sfs) :
    s.writeINodeTable.iNodesTableCache = s.iNodesTableCache := (rfl)

@[simp] theorem iNodes_writeFreeBlockList (s : Sfs) (g : Fin 300) :
    s.writeFreeBlockList.iNodes g = s.iNodes g := (rfl)

@[simp] theorem freeBlockListCache_writeFreeBlockList (s : Sfs) :
    s.writeFreeBlockList.freeBlockListCache = s.freeBlockListCache := (rfl)

@[simp] theorem openFDTCache_writeFreeBlockList (s : Sfs) :
    s.writeFreeBlockList.openFDTCache = s.openFDTCache := (rfl)

@[simp] theorem rootDirectoryCache_writeFreeBlockList (s : Sfs) :
    s.writeFreeBlockList.rootDirectoryCache = s.rootDirectoryCache := (rfl)

@[simp] theorem iNodesTableCache_setReadWritePointer (s : Sfs) (f : Fin 300) (p : Int) :
    (s.setReadWritePointer f p).iNodesTableCache = s.iNodesTableCache := (rfl)

@[simp] theorem filename_writeINodeTable (s : Sfs) (g : Fin 300) :
    s.writeINodeTable.filename g = s.filename g := (rfl)

@[simp] theorem filename_writeRootDirectory (n : Int) (s : Sfs) (g : Fin 300) :
    (s.writeRootDirectory n).filename g = s.filename g := (rfl)

@[simp] theorem filename_writeFreeBlockList (s : Sfs) (g : Fin 300) :
    s.writeFreeBlockList.filename g = s.filename g := (rfl)

@[simp] theorem filename_setINode (s : Sfs) (f g : Fin 300) (n : INode) :
    (s.setINode f n).filename g = s.filename g := (rfl)

@[simp] theorem filename_setReadWritePointer (s : Sfs) (f g : Fin 300) (p : Int) :
    (s.setReadWritePointer f p).filename g = s.filename g := (rfl)

/-! ## `sfs_fopen` -/

/-- What `sfs_fopen` does when it creates a file. -/
def createFile (s : Sfs) (f : Fin 300) (fname : CString) : Sfs :=
  ((((s.setReadWritePointer f 0).setINode f { s.iNodes f with size := 0 }).setFilename f
    fun i => strncpy fname.image 35 i).writeINodeTable).writeRootDirectory 5

theorem sfsFopen_cases (h : sfsFopen fname s = (ret, s')) :
    (ret = -1 ∧ s' = s) ∨
    (∃ f, badLength (wrap32 fname.length) = false ∧ findName fname s = some f ∧
      ret = (f : Nat) ∧ s' = s.setReadWritePointer f (s.iNodes f).size) ∨
    ∃ f, badLength (wrap32 fname.length) = false ∧ findName fname s = none ∧
      findEmpty s = some f ∧ ret = (f : Nat) ∧ s' = s.createFile f fname := by
  unfold sfsFopen at h
  split at h
  · cases h; exact Or.inl ⟨rfl, rfl⟩
  · next hlen =>
      rw [Bool.not_eq_true] at hlen
      split at h
      · next f hf => cases h; exact Or.inr (Or.inl ⟨f, hlen, hf, rfl, rfl⟩)
      · next hf =>
          split at h
          · next f he => cases h; exact Or.inr (Or.inr ⟨f, hlen, hf, he, rfl, rfl⟩)
          · cases h; exact Or.inl ⟨rfl, rfl⟩

theorem iNodes_createFile (s : Sfs) (f g : Fin 300) (fname : CString) :
    (s.createFile f fname).iNodes g =
      if g = f then { s.iNodes f with size := 0 } else s.iNodes g := by
  unfold createFile
  simp

theorem block_createFile {c : Nat} (hc : c < 2000) (hr : ¬ Reserved c)
    (hd : ¬ DirectoryBlock c) : (s.createFile f fname).disk.block c = s.disk.block c := by
  unfold Reserved at hr
  unfold DirectoryBlock at hd
  unfold createFile
  rw [block_writeRootDirectory_five hc, if_neg (by omega),
    block_writeINodeTable hc, if_neg (by omega)]
  simp

variable (fname) in
theorem createFile_sameBlocks (hs : Owned s) (hd : IndirectApart s) :
    SameBlocks s (s.createFile f fname) := by
  refine .of_frame hs.toNoSharing (fun g => ?_) (fun g => ?_) (fun g c hc => ?_) ?_
  · rw [iNodes_createFile]
    split
    · next h => rw [h]
    · rfl
  · rw [iNodes_createFile]
    split
    · next h => rw [h]
    · rfl
  · have := c.isLt
    exact block_createFile (by omega) (hs.indirect_not_reserved hc) (hd g c hc)
  · simp [createFile]

/-! ## `sfs_fclose` -/

theorem sfsFclose_cases (h : sfsFclose fd s = (ret, s')) :
    (ret = -1 ∧ s' = s) ∨ ∃ f, slot? fd = some f ∧ 0 ≤ s.openFDTCache f ∧ ret = 0 ∧
      s' = s.setReadWritePointer f (-1) := by
  unfold sfsFclose at h
  split at h
  · cases h; exact Or.inl ⟨rfl, rfl⟩
  · next f hf =>
      split at h
      · cases h; exact Or.inl ⟨rfl, rfl⟩
      · next hopen => cases h; exact Or.inr ⟨f, hf, by omega, rfl, rfl⟩

/-! ## `sfs_getnextfilename` -/

@[simp] theorem iNodes_setLocation (s : Sfs) (l : Int) (g : Fin 300) :
    (s.setLocation l).iNodes g = s.iNodes g := (rfl)

@[simp] theorem iNodesTableCache_setLocation (s : Sfs) (l : Int) :
    (s.setLocation l).iNodesTableCache = s.iNodesTableCache := (rfl)

@[simp] theorem freeBlockListCache_setLocation (s : Sfs) (l : Int) :
    (s.setLocation l).freeBlockListCache = s.freeBlockListCache := (rfl)

@[simp] theorem openFDTCache_setLocation (s : Sfs) (l : Int) :
    (s.setLocation l).openFDTCache = s.openFDTCache := (rfl)

@[simp] theorem filename_setLocation (s : Sfs) (l : Int) (g : Fin 300) :
    (s.setLocation l).filename g = s.filename g := (rfl)

@[simp] theorem disk_setLocation (s : Sfs) (l : Int) : (s.setLocation l).disk = s.disk := (rfl)

/-- The listing's location is set and the first `n` directory blocks saved. -/
def saveLocation (s : Sfs) (l : Int) (n : Nat) : Sfs :=
  (s.setLocation l).writeRootDirectory (n : Int)

@[simp] theorem iNodes_saveLocation (s : Sfs) (l : Int) (n : Nat) (g : Fin 300) :
    (s.saveLocation l n).iNodes g = s.iNodes g := by
  simp [saveLocation]

@[simp] theorem freeBlockListCache_saveLocation (s : Sfs) (l : Int) (n : Nat) :
    (s.saveLocation l n).freeBlockListCache = s.freeBlockListCache := by
  simp [saveLocation]

theorem sfsGetnextfilename_cases {m m' : Mem} (h : sfsGetnextfilename m s = (ret, m', s')) :
    s' = s ∨ badLength (intStrlen m) = false ∧ ∃ l n, n ≤ 5 ∧ s' = s.saveLocation l n := by
  unfold sfsGetnextfilename at h
  split at h
  · cases h; exact Or.inl rfl
  · next hlen =>
      rw [Bool.not_eq_true] at hlen
      split at h
      · next f _ => cases h; exact Or.inr ⟨hlen, (f : Nat) + 1, 4, by omega, rfl⟩
      · cases h; exact Or.inr ⟨hlen, 0, 5, by omega, rfl⟩

theorem block_saveLocation {l : Int} {n c : Nat} (hn : n ≤ 5) (hc : c < 2000)
    (hd : ¬ DirectoryBlock c) : (s.saveLocation l n).disk.block c = s.disk.block c := by
  unfold DirectoryBlock at hd
  unfold saveLocation
  rw [block_writeRootDirectory hn hc, if_neg (by omega), disk_setLocation]

theorem saveLocation_sameBlocks (hs : Owned s) (hd : IndirectApart s) {l : Int} {n : Nat}
    (hn : n ≤ 5) : SameBlocks s (s.saveLocation l n) := by
  refine .of_frame hs.toNoSharing (by simp) (by simp) (fun g c hc => ?_) (by simp)
  have := c.isLt
  exact block_saveLocation hn (by omega) (hd g c hc)

/-! ## `sfs_remove` -/

/-- Releasing a list of blocks marks those on it free and no other. -/
theorem foldlM_releaseBlock : ∀ {l : List Int} {fl fl' : Block},
    l.foldlM releaseBlock fl = .ok fl' →
    ∀ b : Fin 1024, fl' b = if ((b : Nat) : Int) ∈ l then FreeBlock else fl b := by
  intro l
  induction l with
  | nil =>
      intro fl fl' h b
      cases h
      simp
  | cons x xs ih =>
      intro fl fl' h b
      rw [List.foldlM_cons] at h
      obtain ⟨fl₁, h₁, h⟩ := ok_bind h
      rw [ih h b]
      unfold releaseBlock at h₁
      split at h₁
      · next hx =>
          cases h₁
          have : ((b : Nat) : Int) ≠ x := by omega
          simp [this]
      · split at h₁
        · next hx =>
            cases h₁
            by_cases hb : ((b : Nat) : Int) = x
            · have hbx : b = ⟨x.toNat, by omega⟩ := Fin.ext (by simp only; omega)
              rw [← hbx, Function.update_self]
              simp [hb]
            · have hbx : b ≠ ⟨x.toNat, by omega⟩ := by
                rintro rfl
                simp only at hb
                omega
              rw [Function.update_of_ne hbx]
              simp [hb]
        · cases h₁

/-- Blocks that are -1 or on the free list can all be released. -/
theorem foldlM_releaseBlock_ok : ∀ {l : List Int} (fl : Block),
    (∀ x ∈ l, x = -1 ∨ (0 ≤ x ∧ x < 1024)) → ∃ fl', l.foldlM releaseBlock fl = .ok fl' := by
  intro l
  induction l with
  | nil => intro fl _; exact ⟨fl, rfl⟩
  | cons x xs ih =>
      intro fl h
      have hx := h x (by simp)
      rw [List.foldlM_cons]
      unfold releaseBlock
      by_cases h1 : x = -1
      · rw [if_pos h1]
        exact ih _ fun y hy => h y (by simp [hy])
      · rw [if_neg h1, dif_pos (by omega)]
        exact ih _ fun y hy => h y (by simp [hy])

variable (junk) in
theorem releaseIndirect_ok (fl : Block) (hs : NoSharing s) :
    ∃ s₂, releaseIndirect junk (s.iNodes f).indirectPointer
      { s with freeBlockListCache := fl } = .ok s₂ := by
  unfold releaseIndirect
  by_cases hind : s.pointer f .indirect = -1
  · have hind' : (s.iNodes f).indirectPointer = -1 := hind
    rw [if_pos hind']
    exact ⟨_, rfl⟩
  · obtain ⟨a, ha, -⟩ := hs.nat_of_pointer hind
    have hlt := a.isLt
    have ha' : (s.iNodes f).indirectPointer = (a : Nat) := ha
    have hne : ¬ ((a : Nat) : Int) = -1 := by omega
    rw [ha', if_neg hne, readBlocks_eq _ (by omega)]
    obtain ⟨fl', hfl'⟩ := foldlM_releaseBlock_ok (l := List.ofFn (s.indirectBlockAt (a : Nat)))
      fl fun x hx => by
        obtain ⟨j, rfl⟩ := List.mem_ofFn.mp hx
        have := hs.range f (.entry j)
        simpa only [pointer, ha', hne, if_false] using this
    rw [← ofImage_memcpy_block s (m := junk)] at hfl'
    exact exists_ok_bind ⟨fl', hfl'⟩ fun _ => ⟨_, rfl⟩

/-- The state `sfs_remove` leaves: the free list is `fl`, the stream has been
moved to `p` by reading the indirect block, and everything is saved. -/
def eraseFile (s : Sfs) (f : Fin 300) (fl : Block) (p : Nat) : Sfs :=
  (((((({ s with freeBlockListCache := fl }.seek p).setINode f INode.unused).setReadWritePointer f
    (-1)).setFilename f (Function.update (s.filename f) 0 0)).writeRootDirectory
      5).writeFreeBlockList).writeINodeTable

/-- The blocks `sfs_remove` gives back: those of the direct pointers and of the
entries. -/
def ReleasedBy (s : Sfs) (f : Fin 300) (b : Fin 1024) : Prop :=
  ∃ r, r ≠ .indirect ∧ s.pointer f r = (b : Nat)

/-- The free list with some blocks marked free. -/
def Released (gone : Fin 1024 → Prop) (fl fl' : Block) : Prop :=
  ∀ b, (gone b → fl' b = FreeBlock) ∧ (¬ gone b → fl' b = fl b)

theorem releaseDirect_released {fl : Block}
    (h : (List.ofFn (s.iNodes f).directPointers).foldlM releaseBlock s.freeBlockListCache =
      .ok fl) :
    Released (fun b => ∃ i, s.pointer f (.direct i) = (b : Nat)) s.freeBlockListCache fl := by
  intro b
  rw [foldlM_releaseBlock h b]
  simp only [List.mem_ofFn, pointer]
  exact ⟨fun hb => if_pos hb, fun hb => if_neg hb⟩

/-- With the pointers in range, what the indirect block lists is released. -/
theorem releaseIndirect_cases (hs : NoSharing s) {fl : Block} {s₂ : Sfs}
    (h : releaseIndirect junk (s.iNodes f).indirectPointer
      { s with freeBlockListCache := fl } = .ok s₂) :
    ∃ fl' p, s₂ = { s with freeBlockListCache := fl' }.seek p ∧
      Released (fun b => ∃ j, s.pointer f (.entry j) = (b : Nat)) fl fl' := by
  unfold releaseIndirect at h
  by_cases hind : s.pointer f .indirect = -1
  · have hind' : (s.iNodes f).indirectPointer = -1 := hind
    rw [if_pos hind'] at h
    refine ⟨fl, s.disk.pos, (Except.ok.inj h).symm, fun b => ⟨?_, fun _ => rfl⟩⟩
    rintro ⟨j, hj⟩
    simp only [pointer, hind', if_true] at hj
    omega
  · obtain ⟨a, ha, -⟩ := hs.nat_of_pointer hind
    have hlt := a.isLt
    have hind' : ¬ (s.iNodes f).indirectPointer = -1 := hind
    have ha' : (s.iNodes f).indirectPointer = (a : Nat) := ha
    have hne : ¬ ((a : Nat) : Int) = -1 := by omega
    rw [if_neg hind', ha', readBlocks_eq _ (by omega)] at h
    obtain ⟨fl', hfl', h⟩ := ok_bind h
    rw [ofImage_memcpy_block] at hfl'
    refine ⟨fl', (a.val + 1) * 1024, (Except.ok.inj h).symm, ?_⟩
    intro b
    rw [foldlM_releaseBlock hfl' b]
    have hmem : (((b : Nat) : Int) ∈ List.ofFn (s.indirectBlockAt (a : Nat))) ↔
        ∃ j, s.pointer f (.entry j) = (b : Nat) := by
      simp only [List.mem_ofFn, pointer, ha', hne, if_false]
    exact ⟨fun hb => if_pos (hmem.mpr hb), fun hb => if_neg fun hin => hb (hmem.mp hin)⟩

variable (junk fname) in
/-- With the pointers in range, `sfs_remove` comes back. -/
theorem sfsRemove_ok (hs : NoSharing s) : ∃ r, sfsRemove junk fname s = .ok r := by
  unfold sfsRemove
  split
  · exact ⟨_, rfl⟩
  · split
    · exact ⟨_, rfl⟩
    · next f hf =>
        obtain ⟨fl, hfl⟩ := foldlM_releaseBlock_ok (l := List.ofFn (s.iNodes f).directPointers)
          s.freeBlockListCache fun x hx => by
            obtain ⟨i, rfl⟩ := List.mem_ofFn.mp hx
            exact hs.range f (.direct i)
        exact exists_ok_bind ⟨fl, hfl⟩ fun fl =>
          exists_ok_bind (releaseIndirect_ok junk fl hs) fun _ => ⟨_, rfl⟩

/-- Whatever the indirect pointer is, its release changes the free list and
moves the stream. -/
theorem releaseIndirect_seek {a : Int} {s₂ : Sfs} (h : releaseIndirect junk a s = .ok s₂) :
    ∃ fl p, s₂ = { s with freeBlockListCache := fl }.seek p := by
  unfold releaseIndirect at h
  split at h
  · exact ⟨s.freeBlockListCache, s.disk.pos, (Except.ok.inj h).symm⟩
  · obtain ⟨p, hp⟩ := Disk.readBlocks_disk_pos junk junk a 1 s.disk
    obtain ⟨fl, -, h⟩ := ok_bind h
    refine ⟨fl, p, (Except.ok.inj h).symm.trans ?_⟩
    show ({ s with
      disk := (s.disk.readBlocks junk a 1 junk).2.2
      freeBlockListCache := fl } : Sfs) = _
    rw [hp]
    rfl

/-- What `sfs_remove` goes through, whatever the state. -/
theorem sfsRemove_steps (h : sfsRemove junk fname s = .ok (ret, s')) :
    (ret = -1 ∧ s' = s ∧
      ¬ (badLength (wrap32 fname.length) = false ∧ (findName fname s).isSome)) ∨
    ∃ f fl₁ fl p, badLength (wrap32 fname.length) = false ∧ findName fname s = some f ∧ ret = 0 ∧
      s' = s.eraseFile f fl p ∧
      (List.ofFn (s.iNodes f).directPointers).foldlM releaseBlock s.freeBlockListCache = .ok fl₁ ∧
      releaseIndirect junk (s.iNodes f).indirectPointer { s with freeBlockListCache := fl₁ } =
        .ok ({ s with freeBlockListCache := fl }.seek p) := by
  unfold sfsRemove at h
  split at h
  · next hlen =>
      cases h
      exact Or.inl ⟨rfl, rfl, fun hno => by rw [hno.1] at hlen; cases hlen⟩
  · next hlen =>
      rw [Bool.not_eq_true] at hlen
      split at h
      · next hf =>
          cases h
          exact Or.inl ⟨rfl, rfl, fun hno => by rw [hf] at hno; cases hno.2⟩
      · next f hf =>
          obtain ⟨fl₁, hfl₁, h⟩ := ok_bind h
          obtain ⟨s₂, hs₂, h⟩ := ok_bind h
          obtain ⟨fl, p, rfl⟩ := releaseIndirect_seek hs₂
          have hpair := Except.ok.inj h
          exact Or.inr ⟨f, fl₁, fl, p, hlen, hf, (congrArg Prod.fst hpair).symm,
            (congrArg Prod.snd hpair).symm, hfl₁, hs₂⟩

theorem sfsRemove_cases (hs : NoSharing s) (h : sfsRemove junk fname s = .ok (ret, s')) :
    (ret = -1 ∧ s' = s ∧
      ¬ (badLength (wrap32 fname.length) = false ∧ (findName fname s).isSome)) ∨
    ∃ f fl p, badLength (wrap32 fname.length) = false ∧ findName fname s = some f ∧ ret = 0 ∧
      s' = s.eraseFile f fl p ∧ Released (s.ReleasedBy f) s.freeBlockListCache fl := by
  rcases sfsRemove_steps h with hrefused | ⟨f, fl₁, fl, p, hlen, hf, hret, rfl, hfl₁, hs₂⟩
  · exact Or.inl hrefused
  · obtain ⟨fl', p', heq, hrel⟩ := releaseIndirect_cases hs hs₂
    have hfl : fl = fl' := congrArg freeBlockListCache heq
    subst hfl
    have hdirect := releaseDirect_released hfl₁
    refine Or.inr ⟨f, fl, p, hlen, hf, hret, rfl, fun b => ⟨?_, ?_⟩⟩
    · rintro ⟨r, hr, hb⟩
      cases r with
      | direct i =>
          by_cases hj : ∃ j, s.pointer f (.entry j) = (b : Nat)
          · exact (hrel b).1 hj
          · rw [(hrel b).2 hj]
            exact (hdirect b).1 ⟨i, hb⟩
      | indirect => exact absurd rfl hr
      | entry j => exact (hrel b).1 ⟨j, hb⟩
    · intro hb
      rw [(hrel b).2 fun ⟨j, hj⟩ => hb ⟨.entry j, by simp, hj⟩,
        (hdirect b).2 fun ⟨i, hi⟩ => hb ⟨.direct i, by simp, hi⟩]

theorem filename_eraseFile (s : Sfs) (f g : Fin 300) (fl : Block) (p : Nat) :
    (s.eraseFile f fl p).filename g =
      if g = f then Function.update (s.filename f) 0 0 else s.filename g := by
  unfold eraseFile
  rw [filename_writeINodeTable, filename_writeFreeBlockList, filename_writeRootDirectory,
    filename_setFilename]
  rfl

theorem iNodes_eraseFile (s : Sfs) (f g : Fin 300) (fl : Block) (p : Nat) :
    (s.eraseFile f fl p).iNodes g = if g = f then INode.unused else s.iNodes g := by
  unfold eraseFile
  simp only [iNodes_writeINodeTable, iNodes_writeFreeBlockList, iNodes_writeRootDirectory,
    iNodes_setFilename, iNodes_setReadWritePointer, iNodes_setINode, iNodes_seek]
  rfl

theorem freeBlockListCache_eraseFile (s : Sfs) (f : Fin 300) (fl : Block) (p : Nat) :
    (s.eraseFile f fl p).freeBlockListCache = fl := by
  unfold eraseFile
  simp only [freeBlockListCache_writeINodeTable, freeBlockListCache_writeFreeBlockList,
    freeBlockListCache_writeRootDirectory, freeBlockListCache_setFilename,
    freeBlockListCache_setReadWritePointer, freeBlockListCache_setINode,
    freeBlockListCache_seek]

theorem block_eraseFile {fl : Block} {p c : Nat} (hc : c < 2000) (hr : ¬ Reserved c)
    (hd : ¬ DirectoryBlock c) : (s.eraseFile f fl p).disk.block c = s.disk.block c := by
  unfold Reserved at hr
  unfold DirectoryBlock at hd
  unfold eraseFile
  rw [block_writeINodeTable hc, if_neg (by omega), block_writeFreeBlockList hc,
    if_neg (by omega), block_writeRootDirectory_five hc, if_neg (by omega)]
  simp

theorem pointer_eraseFile_self {fl : Block} {p : Nat} (r : Ref) :
    (s.eraseFile f fl p).pointer f r = -1 := by
  cases r <;> simp [pointer, iNodes_eraseFile, INode.unused]

theorem pointer_eraseFile_other (hs : Owned s) (hd : IndirectApart s) {fl : Block} {p : Nat}
    (hg : g ≠ f) : (s.eraseFile f fl p).pointer g = s.pointer g := by
  refine pointer_congr ?_ ?_ fun hne => ?_
  · rw [iNodes_eraseFile, if_neg hg]
  · rw [iNodes_eraseFile, if_neg hg]
  · obtain ⟨c, hc, -⟩ := hs.nat_of_pointer hne
    have := c.isLt
    rw [hc, Int.toNat_natCast]
    exact block_eraseFile (by omega) (hs.indirect_not_reserved hc) (hd g c hc)

/-- Removing a file is a release of the blocks it had but for the indirect
block itself. -/
theorem eraseFile_releases (hs : Owned s) (hd : IndirectApart s) {fl : Block} {p : Nat}
    (hfl : Released (s.ReleasedBy f) s.freeBlockListCache fl) :
    s.ledger.Releases (s.ReleasedBy f) (s.eraseFile f fl p).ledger := by
  have hsub : ∀ x b, (s.eraseFile f fl p).ledger.holds x b → x.1 ≠ f ∧ s.ledger.holds x b := by
    rintro ⟨g, r⟩ b hx
    have hx' : (s.eraseFile f fl p).pointer g r = (b : Nat) := hx
    by_cases hg : g = f
    · rw [hg, pointer_eraseFile_self] at hx'
      omega
    · rw [pointer_eraseFile_other hs hd hg] at hx'
      exact ⟨hg, hx'⟩
  exact
    { sub := fun {x b} hx => (hsub x b hx).2
      unheld := fun {x b} hb hx => by
        obtain ⟨r, -, hr⟩ := hb
        have := hs.sound.exclusive (i := (f, r)) hr (hsub x b hx).2
        exact (hsub x b hx).1 (congrArg Prod.fst this).symm
      marks := by
        intro b
        have hmark : (s.eraseFile f fl p).ledger.busy b ↔ fl b = 0 := by
          simp only [Sfs.ledger, freeBlockListCache_eraseFile]
        rw [hmark]
        by_cases hb : s.ReleasedBy f b
        · rw [(hfl b).1 hb]
          exact ⟨fun h => absurd h (by decide), fun h => absurd hb h.2⟩
        · rw [(hfl b).2 hb]
          exact ⟨fun h => ⟨h, hb⟩, fun h => h.1⟩ }

theorem eraseFile_owned (hs : Owned s) (hd : IndirectApart s) {fl : Block} {p : Nat}
    (hfl : Released (s.ReleasedBy f) s.freeBlockListCache fl) : Owned (s.eraseFile f fl p) := by
  have hrel := eraseFile_releases (p := p) hs hd hfl
  exact
    { range := by
        intro g r
        by_cases hg : g = f
        · rw [hg, pointer_eraseFile_self]
          exact Or.inl rfl
        · rw [pointer_eraseFile_other hs hd hg]
          exact hs.range g r
      sound := hs.sound.releases hrel
      reserved := fun b hb => (hrel.marks b).mpr
        ⟨hs.reserved b hb, fun ⟨r, _, hr⟩ => hs.apart f r b hr hb⟩
      apart := fun g r b heq => hs.apart g r b (hrel.sub (i := (g, r)) heq) }

end OsConcepts.Sfs
