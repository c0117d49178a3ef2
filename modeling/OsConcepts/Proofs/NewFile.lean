import OsConcepts.Proofs.SfsFormat
import OsConcepts.Proofs.SfsLoad
import OsConcepts.Sfs.Runs

/-!
# Creating a file and filling it

The way a file comes into being: `sfs_fopen` with a name nobody has takes the
first empty slot, and a write to a file without blocks is given as many as its
size asks for and one more once it needs an indirect block. Both are stated for
any state; the runs that show a call going wrong are put together from them.
The other state such calls start from is a disk that has no block left.
-/

namespace OsConcepts.Sfs

open OsConcepts

variable {s s' : Sfs} {f g : Fin 300} {junk : Mem} {fname : CString} {b : Byte}

/-! ## Finding a slot -/

theorem image_filename_zero (s : Sfs) (f : Fin 300) :
    s.rootDirectoryCache.image (35 * f) = s.filename f 0 :=
  s.rootDirectoryCache.image_entry f 0

/-- No slot's name starts as this one does. -/
theorem findName_eq_none {bs : List Byte} (hbytes : fname.bytes = b :: bs)
    (h : ∀ f, s.filename f 0 ≠ b) : findName fname s = none := by
  unfold findName
  rw [Fin.find?_eq_none_iff]
  intro f
  rw [hbytes, strcmpEq, image_filename_zero]
  simp [h f]

theorem findEmpty_eq_some (h : ¬ s.Live f) (hfirst : ∀ g, g < f → s.Live g) :
    findEmpty s = some f := by
  unfold findEmpty
  rw [Fin.find?_eq_some_iff]
  refine ⟨by simpa [Live] using h, ?_⟩
  intro g hg
  simpa [Live] using hfirst g hg

theorem not_live_of_findEmpty (h : findEmpty s = some f) : ¬ s.Live f := by
  have hnul := (Fin.find?_eq_some_iff.mp h).1
  show ¬ s.filename f 0 ≠ 0
  simpa using hnul

theorem sfsFopen_creates (hlen : badLength (wrap32 fname.length) = false)
    (hname : findName fname s = none) (hempty : findEmpty s = some f) :
    sfsFopen fname s = (((f : Nat) : Int), s.createFile f fname) := by
  unfold sfsFopen
  rw [hlen, hname, hempty]
  rfl

/-- The start of every run below. -/
theorem formatted_fresh : Fresh formatted := mksfs_fresh _ _

theorem Fresh.freeBelow_all (h : Fresh s) : s.freeBelow 1024 = 1005 := by
  refine Eq.trans ?_ (h.freeBelow (d := 1005) (Nat.le_refl _))
  refine FirstFit.freeBelow_eq_of_none_free (by omega) ?_
  intro i hi hi'
  simp only [freeCell, h.freeList, occupiedBelow]
  rw [if_pos (Or.inr (by omega))]
  decide

theorem Fresh.findEmpty (h : Fresh s) : Sfs.findEmpty s = some 0 :=
  findEmpty_eq_some (fun hl => hl (h.names 0)) fun g hg => absurd hg (by omega)

/-! ## The created file -/

theorem filename_createFile (s : Sfs) (f g : Fin 300) (fname : CString) :
    (s.createFile f fname).filename g =
      if g = f then fun i : Fin 35 => strncpy fname.image 35 i else s.filename g := by
  unfold createFile
  simp

theorem openFDTCache_createFile (s : Sfs) (f g : Fin 300) (fname : CString) :
    (s.createFile f fname).openFDTCache g = if g = f then 0 else s.openFDTCache g := by
  unfold createFile
  simp

theorem createFile_position (s : Sfs) (f : Fin 300) (fname : CString) :
    (s.createFile f fname).openFDTCache f = 0 := by
  rw [openFDTCache_createFile, if_pos rfl]

theorem live_createFile {bs : List Byte} (hbytes : fname.bytes = b :: bs) :
    (s.createFile f fname).filename f 0 = b := by
  rw [filename_createFile, if_pos rfl]
  refine (strncpy_image fname (n := 35) (i := 0) (by omega)).trans ?_
  simp [CString.image, Mem.ofList, hbytes]

theorem numBlocksForFile_zero : numBlocksForFile 0 = 0 := by decide

theorem backed_of_size_zero (h : (s.iNodes f).size = 0) : Backed s f := by
  unfold Backed
  rw [h]
  refine ⟨Int.le_refl 0, by decide, ?_⟩
  intro k hk
  rw [numBlocksForFile_zero] at hk
  omega

theorem createFile_size (s : Sfs) (f : Fin 300) (fname : CString) :
    ((s.createFile f fname).iNodes f).size = 0 := by
  rw [iNodes_createFile, if_pos rfl]

/-! ## Filling it -/

/-- A file without blocks is missing one for every index, and an indirect block
past index 12. -/
theorem missing_of_no_blocks (h : ∀ r, s.pointer f r = -1) : ∀ {n k : Nat},
    s.missing f k n = n + if k ≤ 12 ∧ 12 < k + n then 1 else 0 := by
  have hneed : ∀ k, s.need f k = 1 + if k = 12 then 1 else 0 := by
    intro k
    have hbp : s.blockPointer f k = -1 := by
      unfold blockPointer
      split
      · exact h _
      · split
        · exact h _
        · rfl
    unfold need
    rw [if_pos hbp, h]
    simp
  intro n
  induction n with
  | zero => intro k; rw [missing, if_neg (by omega)]
  | succ n ih =>
      intro k
      rw [missing, hneed, ih]
      split <;> split <;> split <;> omega

theorem strnlen_zeros (n : Nat) : strnlen (fun _ => 0) (n + 1) 0 = 0 := by
  rw [strnlen, if_pos rfl]

theorem blocksToWrite_new (hsize : (s.iNodes f).size = 0) (hopen : s.openFDTCache f = 0)
    {n : Nat} (hn : n ≤ 268) : s.blocksToWrite f (n * 1024 : Nat) = n := by
  unfold blocksToWrite
  rw [newFileSize_eq (by omega) (by omega) (by omega), numBlocksForFile_eq (by omega)]
  omega

variable (junk) in
/-- Writing `n` blocks of zeros to a new file goes through when `n` blocks and
an indirect block are free. -/
theorem write_new_file (hs : Owned s) (hp : ∀ r, s.pointer f r = -1)
    (hsize : (s.iNodes f).size = 0) (hopen : s.openFDTCache f = 0) {n : Nat} (hn : n ≤ 268)
    (hfree : n + 1 ≤ s.freeBelow 1024) :
    ∃ data s₀ s₁, sfsFwrite junk (f : Nat) (fun _ => 0) (n * 1024 : Nat) s =
        .ok ((n * 1024 : Nat), s₁.finishWrite f (n * 1024 : Nat)) ∧
      Rereads f s s₀ ∧ Progress f 0 n data s₀ s₁ := by
  have hbacked := backed_of_size_zero hsize
  have hnew : s.newFileSize f (n * 1024 : Nat) = (n * 1024 : Nat) := by
    rw [newFileSize_eq (by omega) (by omega) (by omega)]
    omega
  have hblocks := blocksToWrite_new hsize hopen hn
  have hmissing : s.missing f 0 (s.blocksToWrite f (n * 1024 : Nat)) ≤ s.freeBelow 1024 := by
    rw [hblocks, missing_of_no_blocks hp]
    split <;> omega
  have hwrite := sfsFwrite_of_enough junk (fun _ => 0) _ hs hbacked.1 hbacked.2.1
    (by omega) (by omega) (by omega) (by rw [strnlen_zeros]; omega) (by omega) hmissing
  rwa [hblocks, hnew] at hwrite

/-- A name of one letter. -/
def letter (b : Byte) (h : b ≠ 0) : CString where
  bytes := [b]
  no_nul c hc := by
    rw [List.mem_singleton.mp hc]
    exact h

theorem badLength_letter (h : b ≠ 0) : badLength (wrap32 (letter b h).length) = false := by
  rw [show (letter b h).length = 1 from rfl]
  decide

theorem Rereads.filename (h : Rereads f s s') (g : Fin 300) : s'.filename g = s.filename g := by
  obtain ⟨p, q, rfl⟩ := h
  rfl

theorem Rereads.wellFormed (h : Rereads f s s') (hw : WellFormed s) : WellFormed s' where
  toOwned := h.sameBlocks.owned hw.toOwned
  directory g r b hb := hw.directory g r b (by rwa [h.sameBlocks.pointer] at hb)
  backed g hl := h.backed (hw.backed g (by rwa [Live, h.filename] at hl))

theorem filename_finishWrite (s : Sfs) (f g : Fin 300) (fileSize : Int) :
    (s.finishWrite f fileSize).filename g = s.filename g := by
  unfold finishWrite
  simp

theorem Extends.filename (h : Extends f s s') (g : Fin 300) : s'.filename g = s.filename g := by
  unfold Sfs.filename
  rw [h.directory]

/-- The two calls that make a new file of `n` blocks, named by a letter: the
write fits wherever that many blocks and an indirect block are free, its blocks
come from the free ones, and only the file's slot has a new name. -/
theorem new_file_steps (hs : Owned s) (hd : IndirectApart s) (hb : b ≠ 0)
    (hname : ∀ g, s.filename g 0 ≠ b) (hempty : findEmpty s = some f)
    (hp : ∀ r, s.pointer f r = -1) {n : Nat} (hn : n ≤ 268) (hfree : n + 1 ≤ s.freeBelow 1024) :
    ∃ t data s₀ s₁, (Call.fopen (letter b hb)).exec s = .ok ((f : Nat), t) ∧
      (Call.fwrite (fun _ => 0) (f : Nat) (fun _ => 0) (n * 1024 : Nat)).exec t =
        .ok ((n * 1024 : Nat), s₁.finishWrite f (n * 1024 : Nat)) ∧
      (∀ bound, n + 1 ≤ s.freeBelow bound →
        Fits bound t (.fwrite (fun _ => 0) (f : Nat) (fun _ => 0) (n * 1024 : Nat))) ∧
      SameBlocks s s₀ ∧ Progress f 0 n data s₀ s₁ ∧
      ∀ g, (s₁.finishWrite f (n * 1024 : Nat)).filename g 0 =
        if g = f then b else s.filename g 0 := by
  have hsame := createFile_sameBlocks (f := f) (letter b hb) hs hd
  have hopen := sfsFopen_creates (badLength_letter hb)
    (findName_eq_none rfl hname) hempty
  have hpointer : ∀ r, (s.createFile f (letter b hb)).pointer f r = -1 :=
    fun r => by rw [hsame.pointer, hp]
  have hfdt := createFile_position s f (letter b hb)
  obtain ⟨data, s₀, s₁, hwrite, hre, hP⟩ := write_new_file (fun _ => 0)
    (f := f) (n := n) (hsame.owned hs) hpointer (createFile_size s f _) hfdt hn
    (by rw [hsame.freeBelow]; exact hfree)
  refine ⟨_, data, s₀, s₁, congrArg Except.ok hopen, hwrite, fun bound hbound g ha => ?_,
    hsame.trans hre.sameBlocks, hP, fun g => ?_⟩
  · obtain rfl := ha.eq_of_natCast
    rw [blocksToWrite_new (createFile_size s g _) hfdt hn, hsame.freeBelow,
      missing_of_no_blocks hpointer]
    split <;> omega
  · rw [filename_finishWrite, hP.ext.filename, hre.filename, filename_createFile]
    split
    · next h =>
        have hfirst := live_createFile (s := s) (f := f) (rfl : (letter b hb).bytes = [b])
        rw [filename_createFile, if_pos rfl] at hfirst
        exact hfirst
    · rfl

/-- The same as two steps of a run. -/
theorem reach_new_file (hr : system.Reachable s) (hs : Owned s) (hd : IndirectApart s)
    (hb : b ≠ 0) (hname : ∀ g, s.filename g 0 ≠ b) (hempty : findEmpty s = some f)
    (hp : ∀ r, s.pointer f r = -1) {n : Nat} (hn : n ≤ 268) (hfree : n + 1 ≤ s.freeBelow 1024) :
    ∃ data s₀ s₁, system.Reachable (s₁.finishWrite f (n * 1024 : Nat)) ∧ SameBlocks s s₀ ∧
      Progress f 0 n data s₀ s₁ ∧
      ∀ g, (s₁.finishWrite f (n * 1024 : Nat)).filename g 0 =
        if g = f then b else s.filename g 0 := by
  obtain ⟨t, data, s₀, s₁, hopen, hwrite, -, hsame, hP, hnames⟩ :=
    new_file_steps hs hd hb hname hempty hp hn hfree
  have hr₁ : system.Reachable t := hr.step (a := (.fopen (letter b hb), (f : Nat))) hopen
  exact ⟨data, s₀, s₁, hr₁.step
    (a := (.fwrite (fun _ => 0) (f : Nat) (fun _ => 0) (n * 1024 : Nat), (n * 1024 : Nat))) hwrite,
    hsame, hP, hnames⟩

theorem Fresh.isolated (h : Fresh s) : Isolated s where
  toOwned := h.owned
  directory f r b hb := by
    rw [h.pointer] at hb
    omega

/-! ## A fresh disk with one new file -/

theorem Fresh.createFile_sameBlocks (h : Fresh s) (fname : CString) :
    SameBlocks s (s.createFile 0 fname) :=
  Sfs.createFile_sameBlocks fname h.owned h.isolated.indirectApart

theorem Fresh.createFile_pointer (h : Fresh s) (fname : CString) (f : Fin 300) (r : Ref) :
    (s.createFile 0 fname).pointer f r = -1 := by
  rw [(h.createFile_sameBlocks fname).pointer, h.pointer]

theorem Fresh.createFile_freeBelow (h : Fresh s) (fname : CString) :
    (s.createFile 0 fname).freeBelow 1024 = 1005 := by
  rw [(h.createFile_sameBlocks fname).freeBelow, h.freeBelow_all]

theorem Fresh.sfsFopen_letter (h : Fresh s) (hb : b ≠ 0) :
    sfsFopen (letter b hb) s = ((((0 : Fin 300) : Nat) : Int), s.createFile 0 (letter b hb)) :=
  sfsFopen_creates (badLength_letter hb)
    (findName_eq_none rfl fun g => by rw [h.names]; exact hb.symm) h.findEmpty

theorem live_createFile_letter (s : Sfs) (f : Fin 300) (hb : b ≠ 0) :
    (s.createFile f (letter b hb)).Live f := by
  unfold Live
  rw [live_createFile rfl]
  exact hb

/-- It is well formed. -/
theorem Fresh.createFile_wellFormed (h : Fresh s) (fname : CString) :
    WellFormed (s.createFile 0 fname) where
  toIsolated :=
    { toOwned := (h.createFile_sameBlocks fname).owned h.owned
      directory := by
        intro f r b hb
        rw [h.createFile_pointer] at hb
        omega }
  backed f hl := by
    by_cases hf : f = 0
    · rw [hf]
      exact backed_of_size_zero (createFile_size s 0 fname)
    · unfold Live at hl
      rw [filename_createFile, if_neg hf, h.names] at hl
      exact absurd rfl hl

/-! ## A full disk -/

/-- A full disk with two files: `A` has twelve blocks, and behind the last of
them lies the only block of `B`. -/
def fullDisk : Sfs where
  disk := Disk.initFreshDisk 1024 2000
  superBlockCache := formatted.superBlockCache
  iNodesTableCache :=
    { name := formatted.iNodesTableCache.name
      iNodes := fun f =>
        if f = 0 then ⟨-1, 12288, fun i => 18 + (i : Nat), -1⟩
        else if f = 1 then ⟨-1, 1024, fun i => if i = 0 then 30 else -1, -1⟩
        else INode.unused }
  freeBlockListCache := fun _ => OccupiedBlock
  openFDTCache := fun f => if f = 0 then 12288 else -1
  rootDirectoryCache :=
    { directoryEntries := fun f i =>
        if i = 0 then if f = 0 then 65 else if f = 1 then 66 else 0 else 0
      location := 0 }

theorem fullDisk_iNodes (f : Fin 300) : fullDisk.iNodes f =
    if f = 0 then ⟨-1, 12288, fun i => 18 + (i : Nat), -1⟩
    else if f = 1 then ⟨-1, 1024, fun i => if i = 0 then 30 else -1, -1⟩
    else INode.unused := (rfl)

theorem fullDisk_indirect (f : Fin 300) : fullDisk.pointer f .indirect = -1 := by
  simp only [pointer, fullDisk_iNodes]
  split
  · rfl
  · split <;> rfl

theorem fullDisk_entry (f : Fin 300) (j : Fin 256) : fullDisk.pointer f (.entry j) = -1 := by
  have hind : (fullDisk.iNodes f).indirectPointer = -1 := fullDisk_indirect f
  simp only [pointer, hind, if_true]

theorem fullDisk_direct (f : Fin 300) (i : Fin 12) : fullDisk.pointer f (.direct i) =
    if f = 0 then 18 + ((i : Nat) : Int) else if f = 1 ∧ i = 0 then 30 else -1 := by
  simp only [pointer, fullDisk_iNodes]
  split
  · rfl
  · split
    · next h => simp [h]
    · next h => simp [h, INode.unused]

/-- The pointers in use are the twelve of `A` and the one of `B`. -/
theorem fullDisk_pointer {f : Fin 300} {r : Ref} (h : fullDisk.pointer f r ≠ -1) :
    (f = 0 ∧ ∃ i : Fin 12, r = .direct i ∧ fullDisk.pointer f r = 18 + (i : Nat)) ∨
      f = 1 ∧ r = .direct 0 ∧ fullDisk.pointer f r = 30 := by
  cases r with
  | indirect => exact absurd (fullDisk_indirect f) h
  | entry j => exact absurd (fullDisk_entry f j) h
  | direct i =>
      rw [fullDisk_direct] at h ⊢
      by_cases hf : f = 0
      · rw [if_pos hf]
        exact Or.inl ⟨hf, i, rfl, rfl⟩
      · rw [if_neg hf] at h ⊢
        by_cases hf1 : f = 1 ∧ i = 0
        · rw [if_pos hf1]
          exact Or.inr ⟨hf1.1, by rw [hf1.2], rfl⟩
        · rw [if_neg hf1] at h
          exact absurd rfl h

theorem fullDisk_blockPointer {k : Nat} (hk : k < 12) : fullDisk.blockPointer 0 k = 18 + k := by
  refine (blockPointer_direct (s := fullDisk) (f := 0) ⟨k, hk⟩).trans ?_
  rw [fullDisk_direct, if_pos rfl]

theorem fullDisk_name (f : Fin 300) :
    fullDisk.filename f 0 = if f = 0 then 65 else if f = 1 then 66 else 0 := (rfl)

theorem fullDisk_live {f : Fin 300} (h : fullDisk.Live f) : f = 0 ∨ f = 1 := by
  by_contra hno
  obtain ⟨hA, hB⟩ := not_or.mp hno
  refine h ?_
  rw [fullDisk_name, if_neg hA, if_neg hB]

theorem fullDisk_wellFormed : WellFormed fullDisk where
  range f r := by
    by_cases h : fullDisk.pointer f r = -1
    · exact Or.inl h
    · rcases fullDisk_pointer h with ⟨-, i, -, hi⟩ | ⟨-, -, hi⟩ <;> omega
  sound :=
    { exclusive := fun {x y b} hx hy => by
        have hx' : fullDisk.pointer x.1 x.2 = (b : Nat) := hx
        have hy' : fullDisk.pointer y.1 y.2 = (b : Nat) := hy
        rcases fullDisk_pointer (f := x.1) (r := x.2) (by omega) with
          ⟨hf, i, hr, hi⟩ | ⟨hf, hr, hi⟩ <;>
        rcases fullDisk_pointer (f := y.1) (r := y.2) (by omega) with
          ⟨hf', i', hr', hi'⟩ | ⟨hf', hr', hi'⟩
        · have hii : i = i' := Fin.ext (by omega)
          exact Prod.ext (hf.trans hf'.symm) (by rw [hr, hr', hii])
        · have := i.isLt
          omega
        · have := i'.isLt
          omega
        · exact Prod.ext (hf.trans hf'.symm) (hr.trans hr'.symm)
      accounted := fun _ => rfl }
  reserved b _ := rfl
  apart f r b hb hres := by
    rcases fullDisk_pointer (f := f) (r := r) (by omega) with ⟨-, i, -, hi⟩ | ⟨-, -, hi⟩ <;>
    rcases hres with hres | hres <;> omega
  directory f r b hb hdir := by
    have hlow := hdir.1
    rcases fullDisk_pointer (f := f) (r := r) (by omega) with ⟨-, i, -, hi⟩ | ⟨-, -, hi⟩ <;> omega
  backed f hl := by
    rcases fullDisk_live hl with rfl | rfl
    · refine ⟨by decide, by decide, fun k hk => ?_⟩
      rw [show (fullDisk.iNodes 0).size = 12288 from rfl, numBlocksForFile_eq (by decide)] at hk
      have := fullDisk_blockPointer (k := k) (by omega)
      omega
    · refine ⟨by decide, by decide, fun k hk => ?_⟩
      rw [show (fullDisk.iNodes 1).size = 1024 from rfl, numBlocksForFile_eq (by decide)] at hk
      obtain rfl : k = 0 := by omega
      have hdir : fullDisk.blockPointer 1 0 = 30 :=
        (blockPointer_direct (s := fullDisk) (f := 1) 0).trans (fullDisk_direct 1 0)
      omega

theorem fullDisk_missing {n : Nat} (hn : n ≤ 12) : fullDisk.missing 0 0 n = 0 := by
  refine missing_eq_zero fun j _ hj => ?_
  have := fullDisk_blockPointer (k := j) (by omega)
  rw [need, if_neg (by omega), if_neg (by omega)]

theorem fullDisk_freeBelow : fullDisk.freeBelow 1024 = 0 :=
  FirstFit.freeBelow_eq_zero.mpr fun _ _ => rfl

/-- A write within `A` needs its twelve blocks. -/
theorem fullDisk_blocksToWrite {p count : Int} (hp : 0 ≤ p) (hcount : 0 ≤ count)
    (hend : p + count ≤ 12288) :
    (fullDisk.setReadWritePointer 0 p).blocksToWrite 0 count = 12 := by
  have hnode : (fullDisk.setReadWritePointer 0 p).iNodes 0 = fullDisk.iNodes 0 := by simp
  have hsize : (fullDisk.iNodes 0).size = 12288 := rfl
  have hfdt : (fullDisk.setReadWritePointer 0 p).openFDTCache 0 = p := by simp
  rw [blocksToWrite, newFileSize_eq hcount (by omega) (by omega), hnode, hsize, hfdt,
    max_eq_left hend]
  decide

variable (junk) in
/-- It goes through. -/
theorem fullDisk_write (buf : Mem) {p count : Int} (hp : 0 ≤ p) (hcount : 0 ≤ count)
    (hend : p + count ≤ 12288) (hbuf : strnlen buf 2048001 0 ≤ 2048000) :
    ∃ s', sfsFwrite junk ((0 : Fin 300) : Nat) buf count (fullDisk.setReadWritePointer 0 p) =
      .ok (count, s') := by
  have hmove := Rereads.move 0 fullDisk p
  have hw := hmove.wellFormed fullDisk_wellFormed
  have hnode : (fullDisk.setReadWritePointer 0 p).iNodes 0 = fullDisk.iNodes 0 := by simp
  have hsize : (fullDisk.iNodes 0).size = 12288 := rfl
  have hfdt : (fullDisk.setReadWritePointer 0 p).openFDTCache 0 = p := by simp
  have hblocks := fullDisk_blocksToWrite hp hcount hend
  have hmissing : (fullDisk.setReadWritePointer 0 p).missing 0 0
      ((fullDisk.setReadWritePointer 0 p).blocksToWrite 0 count) = 0 := by
    rw [hblocks, hmove.sameBlocks.missing, fullDisk_missing (Nat.le_refl 12)]
  obtain ⟨_, _, _, hwrite, -⟩ := sfsFwrite_of_enough junk buf count hw.toOwned (f := 0)
    (by rw [hnode]; omega) (by rw [hnode]; omega) (by omega) hcount (by omega) hbuf (by omega)
    (by omega)
  exact ⟨_, hwrite⟩

/-- The thirteenth block comes with an indirect one. -/
theorem fullDisk_need : fullDisk.need 0 12 = 2 := by
  have hentry : fullDisk.blockPointer 0 12 = -1 := fullDisk_entry 0 0
  rw [need, if_pos hentry, if_pos ⟨rfl, fullDisk_indirect 0⟩]

theorem fullDisk_blocksToWrite_past : fullDisk.blocksToWrite 0 1 = 13 := by
  have hsize : (fullDisk.iNodes 0).size = 12288 := rfl
  have hfdt : fullDisk.openFDTCache 0 = 12288 := rfl
  rw [blocksToWrite, newFileSize_eq (by omega) (by omega) (by omega), hsize, hfdt]
  decide

variable (junk) in
/-- A write past `A` fails. -/
theorem fullDisk_write_fails :
    ∃ s', sfsFwrite junk ((0 : Fin 300) : Nat) (fun _ => 0) 1 fullDisk = .ok (-1, s') := by
  have hsize : (fullDisk.iNodes 0).size = 12288 := rfl
  have hfdt : fullDisk.openFDTCache 0 = 12288 := rfl
  obtain ⟨ret, s', h⟩ := sfsFwrite_ok junk (fun _ => 0) 1 (s := fullDisk) (f := 0) (by omega)
    (by omega) (by omega) (by omega) (by omega)
  rcases sfsFwrite_cases fullDisk_wellFormed.toOwned h with
    ⟨rfl, -, -⟩ | ⟨g, data, s₀, ha, hload, hout⟩
  · exact ⟨s', h⟩
  rw [ha.eq_of_natCast, fullDisk_blocksToWrite_past] at hout
  cases hout with
  | stopped => exact ⟨s', h⟩
  | done hP =>
      have hsame := (loadFileData_rereads hload).sameBlocks
      have henough := hP.enough
      rw [hsame.missing, hsame.freeBelow, fullDisk_freeBelow, missing_succ, fullDisk_need] at henough
      omega

theorem fullDisk_findName : findName (letter 66 (by decide)) fullDisk = some 1 := by
  refine Fin.find?_eq_some_iff.mpr ⟨strcmpEq_iff.mpr ⟨fun i hi => ?_, rfl⟩, fun j hj => ?_⟩
  · obtain rfl := Nat.lt_one_iff.mp hi
    rfl
  · obtain rfl : j = 0 := Fin.ext (Nat.lt_one_iff.mp hj)
    rfl

variable (junk) in
/-- Removing `B` leaves the name of `A` only. -/
theorem fullDisk_remove : ∃ s', sfsRemove junk (letter 66 (by decide)) fullDisk = .ok (0, s') ∧
    ∀ g, s'.filename g 0 = if g = 0 then 65 else 0 := by
  obtain ⟨⟨ret, s'⟩, h⟩ := sfsRemove_ok junk (letter 66 (by decide))
    fullDisk_wellFormed.toNoSharing
  rcases sfsRemove_steps h with ⟨-, -, hno⟩ | ⟨f, fl₁, fl, p, -, hname, rfl, rfl, -, -⟩
  · refine absurd ⟨badLength_letter (b := 66) (by decide), ?_⟩ hno
    rw [fullDisk_findName]
    rfl
  · obtain rfl : 1 = f := Option.some.inj (fullDisk_findName.symm.trans hname)
    refine ⟨_, h, fun g => ?_⟩
    rw [filename_eraseFile]
    split
    · next hg =>
        rw [hg, Function.update_self]
        rfl
    · next hg => rw [fullDisk_name, if_neg hg]

/-- Fifty letters. -/
def fiftyLetters : CString where
  bytes := List.replicate 50 65
  no_nul b hb := by
    rw [List.eq_of_mem_replicate hb]
    decide

theorem strnlen_fiftyLetters : strnlen fiftyLetters.image 2048001 0 = 50 :=
  fiftyLetters.strnlen_image (Nat.zero_le _)

end OsConcepts.Sfs
