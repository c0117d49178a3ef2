import OsConcepts.Proofs.Touches
import OsConcepts.Proofs.WriteFrame

/-!
# The calls that do not write a file, and the other files

Opening, closing, seeking, reading, listing and removing save the i-node table,
the directory and the free list as a whole, but they change one slot of the
caches at most and no block outside the metadata (`Spares`). So while no file
has a block there, the files in the other slots stay as they are and read as
they did.

A removed file leaves its slot `Vacant`: no pointers, no descriptor, no name.
That lasts, through any calls, until a file is created there.
-/

namespace OsConcepts.Sfs

open OsConcepts

variable {s s' : Sfs} {f g : Fin 300} {junk junk' : Mem} {fd ret : Int} {c : Call}
  {fname : CString}

/-! ## One slot -/

/-- The slot a call designates: by its name, by its descriptor, or the one it is
about to fill. -/
def Call.slot (s : Sfs) : Call → Option (Fin 300)
  | .fopen fname =>
      if badLength (wrap32 fname.length) then none else (findName fname s).or (findEmpty s)
  | .fclose fd | .fseek fd _ | .fread _ fd _ | .fwrite _ fd _ _ => slot? fd
  | .getnextfilename _ | .getfilesize _ => none
  | .remove _ fname => if badLength (wrap32 fname.length) then none else findName fname s

/-- The call is not a write. -/
def Call.NotWrite : Call → Prop
  | .fwrite .. => False
  | _ => True

/-- A slot is as it was in the caches, and so are the blocks files may have. -/
structure Spares (g : Fin 300) (s s' : Sfs) : Prop where
  iNodes : s'.iNodes g = s.iNodes g
  descriptor : s'.openFDTCache g = s.openFDTCache g
  filename : s'.filename g = s.filename g
  block : ∀ c : Nat, c < 2000 → ¬ Reserved c → ¬ DirectoryBlock c →
    s'.disk.block c = s.disk.block c

theorem Spares.refl (g : Fin 300) (s : Sfs) : Spares g s s :=
  ⟨rfl, rfl, rfl, fun _ _ _ _ => rfl⟩

theorem Rereads.spares (h : Rereads f s s') (hg : g ≠ f) : Spares g s s' where
  iNodes := h.iNodes g
  descriptor := h.touches.descriptors g hg
  filename := h.filename g
  block _ _ _ _ := by
    obtain ⟨p, q, rfl⟩ := h
    simp

theorem createFile_spares (s : Sfs) (fname : CString) (hg : g ≠ f) :
    Spares g s (s.createFile f fname) where
  iNodes := by rw [iNodes_createFile, if_neg hg]
  descriptor := by rw [openFDTCache_createFile, if_neg hg]
  filename := by rw [filename_createFile, if_neg hg]
  block _ hc hr hd := block_createFile hc hr hd

theorem eraseFile_spares (s : Sfs) (fl : Block) (p : Nat) (hg : g ≠ f) :
    Spares g s (s.eraseFile f fl p) where
  iNodes := by rw [iNodes_eraseFile, if_neg hg]
  descriptor := by rw [openFDTCache_eraseFile, if_neg hg]
  filename := by rw [filename_eraseFile, if_neg hg]
  block _ hc hr hd := block_eraseFile hc hr hd

theorem saveLocation_spares (s : Sfs) {l : Int} {n : Nat} (hn : n ≤ 5) (g : Fin 300) :
    Spares g s (s.saveLocation l n) where
  iNodes := iNodes_saveLocation s l n g
  descriptor := by simp [saveLocation]
  filename := by simp [saveLocation]
  block _ hc _ hd := block_saveLocation hn hc hd

/-- Any call but a write spares every slot it does not designate. -/
theorem exec_spares (hc : c.NotWrite) (h : c.exec s = .ok (ret, s')) (hg : c.slot s ≠ some g) :
    Spares g s s' := by
  cases exec_effect h with
  | @opened fname f hlen hname =>
      have hslot : (Call.fopen fname).slot s = some f := by simp [Call.slot, hlen, hname]
      exact (Rereads.move f s _).spares fun hfg => hg (hfg ▸ hslot)
  | @created fname f hlen hname hempty =>
      have hslot : (Call.fopen fname).slot s = some f := by simp [Call.slot, hlen, hname, hempty]
      exact createFile_spares s fname fun hfg => hg (hfg ▸ hslot)
  | @closed fd f hf => exact (Rereads.move f s _).spares fun hfg => hg (hfg ▸ hf)
  | sought hmove | read hmove =>
      rcases hmove with rfl | ⟨f, hf, -, hre⟩
      · exact .refl g _
      · exact hre.spares fun hfg => hg (hfg ▸ hf)
  | written => exact absurd hc id
  | listed hn => exact saveLocation_spares s hn g
  | @removed junk fname f fl p hlen hname =>
      have hslot : (Call.remove junk fname).slot s = some f := by simp [Call.slot, hlen, hname]
      exact eraseFile_spares s fl p fun hfg => hg (hfg ▸ hslot)
  | notOpened | notClosed | notListed | sized | notRemoved => exact .refl g s

/-! ## Reading the other files -/

/-- No block has two references, a referenced one is occupied and outside the
metadata, and a live file has a block for every index below its size. -/
structure Separate (s : Sfs) : Prop extends NoSharing s where
  apart : ∀ f r (b : Fin 1024), s.pointer f r = (b : Nat) → ¬ Reserved b ∧ ¬ DirectoryBlock b
  backed : ∀ f, s.Live f →
    ∀ k : Nat, (k : Int) * 1024 < (s.iNodes f).size → s.blockPointer f k ≠ -1

theorem WellFormed.separate (h : WellFormed s) : Separate s where
  toNoSharing := h.toNoSharing
  apart f r b hb := ⟨h.apart f r b hb, h.directory f r b hb⟩
  backed f hl k hk := by
    obtain ⟨hlow, -, hthere⟩ := h.backed f hl
    refine hthere k ?_
    rw [numBlocksForFile_eq hlow]
    omega

theorem Spares.pointer (h : Spares g s s') (hs : Separate s) : s'.pointer g = s.pointer g := by
  refine pointer_congr (by rw [h.iNodes]) (by rw [h.iNodes]) ?_
  intro hne
  obtain ⟨c, hc, -⟩ := hs.nat_of_pointer hne
  have hlt := c.isLt
  rw [hc, Int.toNat_natCast]
  exact h.block c (by omega) (hs.apart g .indirect c hc).1 (hs.apart g .indirect c hc).2

/-- A spared file reads as it did. -/
theorem Spares.readFile (h : Spares g s s') (hs : Separate s) (hl : s.Live g) :
    readFile junk' g s' = readFile junk g s := by
  have hp := h.pointer hs
  have hb : 0 ≤ (s.iNodes g).size → (s.iNodes g).size ≤ 268 * 1024 → Backed s g := by
    refine fun hlow hhigh => ⟨hlow, hhigh, fun k hk => hs.backed g hl k ?_⟩
    rw [numBlocksForFile_eq hlow] at hk
    omega
  refine readFile_congr (hs.range g) hb (by rw [h.iNodes]) hp
    fun i _ _ hne => byteAt_congr hp ?_
  have hk : i / 1024 < 268 := by
    by_contra hge
    exact hne (blockPointer_past (by omega))
  rw [blockPointer_eq hk] at hne ⊢
  obtain ⟨c, hc, -⟩ := hs.nat_of_pointer hne
  have hlt := c.isLt
  rw [hc, Int.toNat_natCast]
  exact h.block c (by omega) (hs.apart g _ c hc).1 (hs.apart g _ c hc).2

/-! ## A vacant slot -/

/-- The slot has no name, no descriptor and no pointers. -/
structure Vacant (f : Fin 300) (s : Sfs) : Prop where
  notLive : ¬ s.Live f
  closed : s.openFDTCache f = -1
  direct : ∀ i, (s.iNodes f).directPointers i = -1
  indirect : (s.iNodes f).indirectPointer = -1

theorem Vacant.pointer (h : Vacant f s) (r : Ref) : s.pointer f r = -1 := by
  cases r with
  | direct i => exact h.direct i
  | indirect => exact h.indirect
  | entry j => rw [Sfs.pointer, if_pos h.indirect]

theorem Vacant.congr (h : Vacant f s) (hname : s'.filename f = s.filename f)
    (hfd : s'.openFDTCache f = s.openFDTCache f) (hnode : s'.iNodes f = s.iNodes f) :
    Vacant f s' where
  notLive := by
    show ¬ s'.filename f 0 ≠ 0
    rw [hname]
    exact h.notLive
  closed := hfd.trans h.closed
  direct i := by rw [hnode, h.direct]
  indirect := by rw [hnode, h.indirect]

theorem Spares.vacant (h : Spares f s s') (hv : Vacant f s) : Vacant f s' :=
  hv.congr h.filename h.descriptor h.iNodes

/-- Removing a file leaves its slot vacant. -/
theorem eraseFile_vacant (s : Sfs) (f : Fin 300) (fl : Block) (p : Nat) :
    Vacant f (s.eraseFile f fl p) where
  notLive := by
    show ¬ (s.eraseFile f fl p).filename f 0 ≠ 0
    rw [filename_eraseFile, if_pos rfl, Function.update_self]
    exact not_not_intro rfl
  closed := by rw [openFDTCache_eraseFile, if_pos rfl]
  direct i := by rw [iNodes_eraseFile, if_pos rfl, INode.unused]
  indirect := by rw [iNodes_eraseFile, if_pos rfl, INode.unused]

/-- The call is an `sfs_fopen` that creates a file in slot `f`. -/
def Creates (f : Fin 300) (s : Sfs) (c : Call) : Prop :=
  ∃ fname, c = .fopen fname ∧ badLength (wrap32 fname.length) = false ∧
    findName fname s = none ∧ findEmpty s = some f

/-- A vacant slot is vacant until a file is created in it. -/
theorem exec_vacant (hv : Vacant f s) (hc : ¬ Creates f s c) (h : c.exec s = .ok (ret, s')) :
    Vacant f s' := by
  have hclosed := hv.closed
  cases exec_effect h with
  | @opened fname g hlen hname =>
      refine Spares.vacant ((Rereads.move g s _).spares fun hfg => ?_) hv
      exact hv.notLive (hfg ▸ live_of_findName hlen hname)
  | @created fname g hlen hname hempty =>
      refine Spares.vacant (createFile_spares s fname fun hfg => ?_) hv
      exact hc ⟨fname, rfl, hlen, hname, hfg ▸ hempty⟩
  | @closed fd g hg hopen =>
      refine Spares.vacant ((Rereads.move g s _).spares fun hfg => ?_) hv
      rw [← hfg] at hopen
      omega
  | sought hmove | read hmove =>
      rcases hmove with rfl | ⟨g, hg, hopen, hre⟩
      · exact hv
      · refine Spares.vacant (hre.spares fun hfg => ?_) hv
        rw [← hfg] at hopen
        omega
  | written hwrite =>
      rcases sfsFwrite_touches hwrite with ⟨-, rfl, -⟩ | ⟨g, ha, htouch⟩
      · exact hv
      · have hfg : f ≠ g := by
          intro hfg
          have := ha.isOpen
          rw [← hfg] at this
          omega
        refine hv.congr ?_ (htouch.descriptors f hfg) (htouch.iNodes f hfg)
        rw [Sfs.filename, htouch.directory]
        rfl
  | listed hn => exact (saveLocation_spares s hn f).vacant hv
  | @removed junk fname g fl p hlen hname =>
      refine Spares.vacant (eraseFile_spares s fl p fun hfg => ?_) hv
      exact hv.notLive (hfg ▸ live_of_findName hlen hname)
  | notOpened | notClosed | notListed | sized | notRemoved => exact hv

/-- Runs from `s` of calls that create no file in slot `f`. -/
def withoutCreating (f : Fin 300) (s : Sfs) : System Sfs (Call × Int) where
  init t := t = s
  step t x t' := ¬ Creates f t x.1 ∧ x.1.exec t = .ok (x.2, t')

theorem vacant_of_run {t : Sfs} (hv : Vacant f s) (h : (withoutCreating f s).Reachable t) :
    Vacant f t := by
  refine System.Reachable.invariant (S := withoutCreating f s) (I := Vacant f)
    (fun t hinit => ?_) (fun t x t' hv hstep => exec_vacant hv hstep.1 hstep.2) h
  have hinit : t = s := hinit
  rwa [hinit]

/-! ## The file created next -/

theorem readAll_of_size_zero (hsize : (s.iNodes f).size = 0) (hopen : 0 ≤ s.openFDTCache f) :
    readAll junk f s = .ok [] := by
  have hnode : (s.setReadWritePointer f 0).iNodes f = s.iNodes f := by simp
  rw [readAll, sfsFseek_eq (Int.le_refl 0) (by omega) hopen]
  show Except.bind (sfsFread junk (f : Nat) _ _) (fun x => .ok x.2.1) = _
  rw [sfsFread, hnode, hsize, if_neg (by omega), slot?_natCast]
  dsimp only
  rw [hnode, hsize, numBlocksForFile_zero]
  simp only [openFDTCache_setReadWritePointer, if_pos]
  rfl

/-- A slot with a new, empty file: size and position zero, no blocks. -/
structure Blank (f : Fin 300) (s : Sfs) : Prop where
  size : (s.iNodes f).size = 0
  position : s.openFDTCache f = 0
  empty : ∀ junk, readAll junk f s = .ok []
  pointer : ∀ r, s.pointer f r = -1

theorem Vacant.created (hv : Vacant f s) (hc : Creates f s c) (h : c.exec s = .ok (ret, s')) :
    ret = (f : Nat) ∧ Blank f s' := by
  obtain ⟨fname, rfl, hlen, hname, hempty⟩ := hc
  have hopen := sfsFopen_creates hlen hname hempty
  have h : sfsFopen fname s = (ret, s') := Except.ok.inj h
  obtain ⟨rfl, rfl⟩ := Prod.mk.inj (hopen.symm.trans h)
  have hsize := createFile_size s f fname
  have hpos := createFile_position s f fname
  refine ⟨rfl, hsize, hpos, fun junk => readAll_of_size_zero hsize (by omega), ?_⟩
  intro r
  have hnode : (s.createFile f fname).iNodes f = { s.iNodes f with size := 0 } := by
    rw [iNodes_createFile, if_pos rfl]
  have hind := hv.indirect
  cases r with
  | direct i => rw [Sfs.pointer, hnode, hv.direct]
  | indirect => rw [Sfs.pointer, hnode, hind]
  | entry j => rw [Sfs.pointer, hnode, if_pos hind]

/-- Every call but a write leaves the slots it does not designate as they are.
A removal leaves its own slot without blocks and closed, and the file created
there next, after whatever calls, is blank. -/
theorem exec_otherFiles (hs : Separate s) :
    (∀ (c : Call) ret s', c.NotWrite → c.exec s = .ok (ret, s') → ∀ g, c.slot s ≠ some g →
      (s'.iNodes g).size = (s.iNodes g).size ∧ s'.pointer g = s.pointer g ∧
      s'.openFDTCache g = s.openFDTCache g ∧
      (s.Live g → ∀ junk junk', readFile junk' g s' = readFile junk g s)) ∧
    ∀ junk fname s', sfsRemove junk fname s = .ok (0, s') →
      ∃ f, findName fname s = some f ∧ (∀ r, s'.pointer f r = -1) ∧ s'.openFDTCache f = -1 ∧
      ∀ t, (withoutCreating f s').Reachable t → ∀ (c : Call) ret t', Creates f t c →
        c.exec t = .ok (ret, t') → ret = (f : Nat) ∧ Blank f t' := by
  refine ⟨fun c ret s' hc h g hg => ?_, fun junk fname s' h => ?_⟩
  · have hspared := exec_spares hc h hg
    exact ⟨by rw [hspared.iNodes], hspared.pointer hs, hspared.descriptor,
      fun hl _ _ => hspared.readFile hs hl⟩
  · rcases sfsRemove_steps h with ⟨hret, -⟩ | ⟨f, fl₁, fl, p, hlen, hname, -, rfl, -, -⟩
    · omega
    · have hv := eraseFile_vacant s f fl p
      exact ⟨f, hname, hv.pointer, hv.closed, fun t ht c ret t' hc h =>
        (vacant_of_run hv ht).created hc h⟩

/-- On the full disk `B` is removed, which leaves `A` alone, and `C` is created in
its slot. -/
theorem otherFiles_fullDisk :
    ∃ s' t', sfsRemove (fun _ => 0) (letter 66 (by decide)) fullDisk = .ok (0, s') ∧
      (∀ junk junk', readFile junk' 0 s' = readFile junk 0 fullDisk) ∧
      (Call.fopen (letter 67 (by decide))).exec s' = .ok (((1 : Fin 300) : Nat), t') ∧
      Blank 1 t' := by
  obtain ⟨s', hrem, hnames⟩ := fullDisk_remove fun _ => 0
  have hexec := (exec_remove (fun _ => 0) (letter 66 (by decide)) fullDisk).trans hrem
  have hslot : (Call.remove (fun _ => 0) (letter 66 (by decide))).slot fullDisk = some 1 := by
    rw [Call.slot, badLength_letter (b := 66) (by decide), fullDisk_findName, if_neg (by decide)]
  obtain ⟨hspares, hnext⟩ := exec_otherFiles fullDisk_wellFormed.separate
  obtain ⟨-, -, -, hread⟩ := hspares (.remove _ _) 0 s' trivial hexec 0 (by rw [hslot]; decide)
  obtain ⟨f, hname, -, -, hblank⟩ := hnext _ _ s' hrem
  obtain rfl : 1 = f := Option.some.inj (fullDisk_findName.symm.trans hname)
  have hcreates : Creates 1 s' (.fopen (letter 67 (by decide))) := by
    refine ⟨_, rfl, badLength_letter (b := 67) (by decide),
      findName_eq_none (b := 67) rfl fun g => ?_, findEmpty_eq_some (fun hl => hl ?_) fun g hg => ?_⟩
    · rw [hnames]
      split <;> decide
    · rw [hnames, if_neg (by decide)]
    · obtain rfl : g = 0 := Fin.ext (Nat.lt_one_iff.mp hg)
      rw [Live, hnames]
      decide
  have hopen := exec_fopen (letter 67 (by decide)) s'
  rw [← Prod.mk.eta (p := sfsFopen (letter 67 (by decide)) s')] at hopen
  obtain ⟨hret, hnew⟩ := hblank s' (.start rfl) _ _ _ hcreates hopen
  rw [hret] at hopen
  exact ⟨s', _, hrem, hread (by show (65 : Byte) ≠ 0; decide), hopen, hnew⟩

end OsConcepts.Sfs
