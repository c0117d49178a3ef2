import OsConcepts.Proofs.FailedWrite
import OsConcepts.Proofs.Listing
import OsConcepts.Proofs.WriteResult
import OsConcepts.Proofs.StoreSteps

/-!
# Writing, listing and removing, as calls of a file store

A write keeps to its file, and what it makes of it is a splice. Where the file
would need more than its 268 blocks the write fails, but only after it has gone
through all 268, so the bytes that lie over old ones are there all the same and
the descriptor is at the end.
-/

namespace OsConcepts.Sfs

open OsConcepts FileStore

variable {s s' s₀ s₁ : Sfs} {f g : Fin 300} {n : CString} {t : Store CString Byte} {d ret : Int}
  {junk buf data m m' : Mem} {count : Int} {bytes : List Byte}

/-! ## What keeps to one file -/

theorem Confined.filename (h : Confined f s s') (g : Fin 300) : s'.filename g = s.filename g := by
  rw [Sfs.filename, Sfs.filename, h.directory]

/-- The names and the other files are as they were, so it is enough to know what
has become of one. -/
theorem Confined.stocked (h : Confined f s s') (hs : Stocked s) (hsaved : Saved s')
    (hb : Backed s' f)
    (hp : 0 ≤ s'.openFDTCache f → s.Live f ∧ s'.openFDTCache f ≤ (s'.iNodes f).size) :
    Stocked s' := by
  refine hs.of_names hsaved (fun g _ => h.filename g) (fun g _ hback => ?_) fun g hopen => ?_
  · by_cases hg : g = f
    · rw [hg]
      exact hb
    · exact backed_congr hback (h.inode g hg) (h.other g hg)
  · rw [live_congr (h.filename g)]
    by_cases hg : g = f
    · rw [hg] at hopen ⊢
      exact hp hopen
    · rw [h.descriptor g hg] at hopen ⊢
      rw [h.inode g hg]
      exact hs.position g hopen

theorem Confined.rewrites (h : Confined f s s') (hs : Stocked s) (ht : Represents s t)
    (hl : s.Live f) (hbytes : s'.contents f = bytes)
    (hend : s'.openFDTCache f = (bytes.length : Nat)) : Represents s' (t.rewrite (f : Nat) bytes) := by
  refine ht.modify (fun g hg => h.view hs hg) ?_
  have hname := h.filename f
  rw [Sfs.view, Sfs.view, if_pos hl, if_pos ((live_congr hname).mpr hl), nameIn_congr hname,
    hbytes, hend, Option.map_some, if_neg (by omega), Int.toNat_natCast]

/-! ## Writing -/

/-- A write that runs into the last pointer has put the new bytes over the old
ones. -/
theorem contents_of_stopped (hs : Stocked s) (hl : s.Live f) {capacity : Int} {p : Nat}
    (hopen : s.openFDTCache f = (p : Nat)) (hcount : 0 ≤ count)
    (hcap : (s.iNodes f).size ≤ capacity) (hfit : s.openFDTCache f + count ≤ capacity)
    (hload : loadFileData junk f buf count capacity s = .ok (data, s₀))
    (hsize : (s'.iNodes f).size = (s.iNodes f).size)
    (hbyte : ∀ k : Nat, (k : Int) < (s.iNodes f).size → s'.byteAt f k = data k) :
    s'.contents f =
      (splice (s.contents f) p (buf.slice 0 count.toNat)).take (s.contents f).length := by
  obtain ⟨hl', hle⟩ := hs.position f (by omega)
  obtain ⟨data', s₀', hload', -, hdata⟩ := loadFileData_eq junk buf count capacity
    hs.toNoSharing (hs.backed f hl) (by omega) hcap hfit
  rw [hload'] at hload
  obtain ⟨rfl, rfl⟩ := Prod.mk.inj (Except.ok.inj hload)
  have hlen := length_contents_cast hs hl
  refine List.ext_getElem? ?_
  intro k
  by_cases hk : k < (s.contents f).length
  · rw [getElem?_contents (by omega), hbyte k (by omega), hdata, List.getElem?_take_of_lt hk,
      getElem?_splice (by omega), Mem.length_slice]
    by_cases hin : p ≤ k ∧ k < p + count.toNat
    · rw [if_pos (by omega), if_pos hin, Mem.getElem?_slice _ (by omega), Nat.zero_add, hopen,
        Int.toNat_natCast]
    · rw [if_neg (by omega), if_neg hin, if_pos (by omega), getElem?_contents (by omega)]
  · rw [List.getElem?_eq_none (by rw [length_contents, hsize]; omega),
      List.getElem?_eq_none (by rw [List.length_take]; omega)]

/-- A write that has gone through is one of the store. -/
theorem Written.simulates (hW : Written f buf count s s') (hs : Stocked s) (h : Represents s t)
    (hconf : Confined f s s') (hsaved : Saved s') (hopen : 0 ≤ s.openFDTCache f)
    (hcount : 0 ≤ count) :
    Stocked s' ∧ ∃ t', Step limits t (.write (f : Nat) count (buf.slice 0 count.toNat)) count [] t' ∧
      Represents s' t' := by
  obtain ⟨hl, hle⟩ := hs.position f hopen
  have hb := hs.backed f hl
  have hlen := length_contents_cast hs hl
  obtain ⟨x, p, hx, hp, hfdt, hbytes⟩ := h.openFile hs hopen
  obtain ⟨k, hcast⟩ := Int.eq_ofNat_of_zero_le hcount
  have hnew : (buf.slice 0 k).length = k := Mem.length_slice _ _ _
  have hsize := hW.size
  have hend := hW.position
  have hpl : p ≤ x.bytes.length := by rw [hbytes]; omega
  have hcontents := hW.contents hb
  rw [← hbytes, hfdt, Int.toNat_natCast, hcast, Int.toNat_natCast] at hcontents
  have hmax : max x.bytes.length (p + (buf.slice 0 k).length) ≤ 268 * 1024 := by
    have hlimit := hb.2.1
    have hwithin := hW.within
    rw [hbytes, hnew]
    omega
  refine ⟨hconf.stocked hs hsaved hW.backed fun _ => ⟨hl, by omega⟩, _, ?_,
    hconf.rewrites hs h hl hcontents ?_⟩
  · have hstep : Step limits t (.write _ _ (buf.slice 0 k)) _ _ _ := Step.written hx hp hmax
    rw [hnew] at hstep
    rw [hcast, Int.toNat_natCast]
    exact hstep
  · rw [length_splice hpl, hend, hbytes, hnew]
    omega

/-- One that has stopped at the last pointer is one that is too large. -/
theorem Progress.simulates {q : Nat} (hP : Progress f 0 268 data s₀ s₁) (hs : Stocked s)
    (h : Represents s t) (hopen : 0 ≤ s.openFDTCache f) (hcount : 0 ≤ count)
    (hint : s.openFDTCache f + count ≤ 2147483648 - 1024)
    (hload : loadFileData junk f buf count (wrap32 (numBlocksForFile (s.newFileSize f count) * 1024))
      s = .ok (data, s₀))
    (hlong : 268 < s.blocksToWrite f count) (hsaved : Saved (s₁.seek q)) :
    Stocked (s₁.seek q) ∧ ∃ t',
      Step limits t (.write (f : Nat) count (buf.slice 0 count.toNat)) (-1) [] t' ∧
        Represents (s₁.seek q) t' := by
  obtain ⟨hl, hle⟩ := hs.position f hopen
  have hb := hs.backed f hl
  have hlen := length_contents_cast hs hl
  have hre := loadFileData_rereads hload
  have hconf : Confined f s (s₁.seek q) :=
    ((hre.confined hs.toOwned).trans
      (hP.ext.confined (hre.sameBlocks.owned hs.toOwned) hP.owned)).trans
      ((Rereads.seek f s₁ q).confined hP.owned)
  have hsize : ((s₁.seek q).iNodes f).size = (s.iNodes f).size := by
    rw [iNodes_seek, hP.ext.size, hre.iNodes]
  have hend : (s₁.seek q).openFDTCache f = (s.iNodes f).size := by
    rw [openFDTCache_seek, hP.ext.descriptors]
    exact (loadFileData_inv hs.toNoSharing hb hopen hload).1
  have hblocks : s.blocksToWrite f count = ((max (s.iNodes f).size (s.openFDTCache f + count) + 1023)
      / 1024).toNat := blocksToWrite_eq hcount hopen (by omega)
  have hmax := hb.2.1
  obtain ⟨x, p, hx, hp, hfdt, hbytes⟩ := h.openFile hs hopen
  obtain ⟨k, hcast⟩ := Int.eq_ofNat_of_zero_le hcount
  have hnew : (buf.slice 0 k).length = k := Mem.length_slice _ _ _
  rw [newFileSize_eq hcount hopen (by omega), numBlocksForFile_eq (by omega),
    wrap32_of_range ⟨by omega, by omega⟩] at hload
  have hbyte : ∀ i : Nat, (i : Int) < (s.iNodes f).size → (s₁.seek q).byteAt f i = data i := by
    intro i hi
    rw [(Rereads.seek f s₁ q).byteAt]
    exact hP.byteAt (by omega)
  have hcontents := contents_of_stopped hs hl hfdt hcount (by omega) (by omega) hload hsize hbyte
  rw [← hbytes, hcast, Int.toNat_natCast] at hcontents
  have hback : Backed (s₁.seek q) f :=
    hP.backed hre hb hsize fun j => (Rereads.seek f s₁ q).sameBlocks.blockPointer f j
  refine ⟨hconf.stocked hs hsaved hback fun _ => ⟨hl, by omega⟩, _, ?_,
    hconf.rewrites hs h hl hcontents ?_⟩
  · have hlarge : 268 * 1024 < max x.bytes.length (p + (buf.slice 0 k).length) := by
      rw [hbytes, hnew]
      omega
    have hstep : Step limits t (.write _ _ (buf.slice 0 k)) _ _ _ := Step.tooLarge hx hp hlarge
    rw [hnew] at hstep
    rw [hcast, Int.toNat_natCast]
    exact hstep
  · rw [hend, List.length_take, length_splice (by rw [hbytes]; omega), hbytes, hnew]
    omega

theorem sfsFwrite_simulates (hs : Stocked s) (h : Represents s t)
    (hk : KeepsSaved s (.fwrite junk d buf count)) (hcare : Careful (.fwrite junk d buf count))
    (hwrite : sfsFwrite junk d buf count s = .ok (ret, s')) :
    Stocked s' ∧ ∃ t', Step limits t (.write d count (buf.slice 0 count.toNat)) ret [] t' ∧
      Represents s' t' := by
  have hsaved := sfsFwrite_saved hs.toSaved hk hwrite
  rcases sfsFwrite_cases hs.toOwned hwrite with ⟨rfl, rfl, hno⟩ | ⟨f, data, s₀, ha, hload, hout⟩
  · refine ⟨hs, t, .writeRefused ?_, h⟩
    by_contra hgo
    rw [not_or, not_not, h.isOpen hs] at hgo
    obtain ⟨hcount, f, hslot, hopen⟩ := hgo
    exact hno f ⟨by omega, hslot, hopen, hcare.2⟩
  · have hopen := ha.isOpen
    have hcount := ha.count_nonneg
    obtain rfl := slot?_eq_some.mp ha.slot
    obtain ⟨hl, hle⟩ := hs.position f hopen
    have hb := hs.backed f hl
    have hre := loadFileData_rereads hload
    have hfit : s₀.missing f 0 (min (s.blocksToWrite f count) 268) ≤ s₀.freeBelow 301 := by
      rw [hre.sameBlocks.missing, hre.sameBlocks.freeBelow]
      exact hk.1 f ha
    obtain ⟨m, s₁, -, hP, hend⟩ := hout.progress_of_fits hfit (by omega)
    rcases hend with ⟨-, rfl, rfl⟩ | ⟨hlong, rfl, rfl, q, rfl⟩
    · have hconf := ((hre.confined hs.toOwned).trans
        (hP.ext.confined (hre.sameBlocks.owned hs.toOwned) hP.owned)).trans
        (finishWrite_confined (f := f) hP.owned (s.newFileSize f ret))
      exact (sfsFwrite_written (hs.toOwned.ownsBlocks f) hle hcount hwrite).simulates hs h hconf
        hsaved hopen hcount
    · refine hP.simulates hs h hopen hcount ?_ hload hlong hsaved
      have hrange : Int32Range (s.openFDTCache f) := ⟨by omega, by have := hb.2.1; omega⟩
      rcases comesBack_of_ok hs.toOwned (hs.backed f hl) ha hrange hcare.1 hwrite with
        hnear | ⟨rfl, hempty, -⟩
      · exact hnear
      · omega

/-! ## Listing and removing -/

/-- It is enough that the slots that are used afterwards have been spared. -/
theorem Stocked.of_spares (hs : Stocked s) (hsaved : Saved s')
    (h : ∀ g, s'.Live g ∨ 0 ≤ s'.openFDTCache g → Spares g s s') : Stocked s' := by
  refine hs.of_names hsaved (fun g hl => (h g (Or.inl hl)).filename) (fun g hl hback => ?_)
    fun g hopen => ?_
  · have hspared := h g (Or.inl hl)
    exact backed_congr hback hspared.iNodes
      (hspared.pointer (WellFormed.of_stocked hs).separate)
  · have hspared := h g (Or.inr hopen)
    rw [hspared.descriptor] at hopen ⊢
    rw [live_congr hspared.filename, hspared.iNodes]
    exact hs.position g hopen

theorem sfsGetnextfilename_simulates (hs : Stocked s) (h : Represents s t)
    (hnext : sfsGetnextfilename m s = (ret, m', s')) :
    Stocked s' ∧ ∃ t', Step limits t (.next (!badLength (intStrlen m))) ret [] t' ∧
      Represents s' t' := by
  unfold sfsGetnextfilename at hnext
  cases hbad : badLength (intStrlen m) with
  | true =>
      rw [hbad, if_pos rfl] at hnext
      cases hnext
      exact ⟨hs, t, .nextRefused, h⟩
  | false =>
      have hkeeps : ∀ {l : Int} {n : Nat}, n ≤ 5 →
          Stocked (s.saveLocation l n) ∧ Represents (s.saveLocation l n) t := fun hn =>
        ⟨hs.of_spares (saveLocation_saved hs.toSaved hn) fun g _ => saveLocation_spares s hn g,
          h.same fun g => (saveLocation_spares s hn g).view hs⟩
      rw [hbad, if_neg (by decide)] at hnext
      cases hfind : Fin.find? (fun f => s.filename f 0 != 0) with
      | some f =>
          rw [hfind] at hnext
          cases hnext
          obtain ⟨hstocked, hrep⟩ := hkeeps (l := (f : Nat) + 1) (n := 4) (by omega)
          obtain ⟨hlive, hfirst⟩ := Fin.find?_eq_some_iff.mp hfind
          have hl : s.Live f := by simpa [Live] using hlive
          obtain ⟨n, hn, hholds⟩ := hs.named f hl
          refine ⟨hstocked, t, .listed (h.live hl hholds (validName_of_limits hn).2) ?_, hrep⟩
          -- A file before it would be in use.
          intro e he
          by_contra hsome
          obtain ⟨x, hx⟩ := Option.ne_none_iff_exists'.mp hsome
          obtain ⟨g, rfl, hlg, -⟩ := h.exists_live hx
          refine hlg ?_
          simpa using hfirst g (by omega)
      | none =>
          rw [hfind] at hnext
          cases hnext
          obtain ⟨hstocked, hrep⟩ := hkeeps (l := 0) (n := 5) (Nat.le_refl 5)
          refine ⟨hstocked, t, .noneListed ?_, hrep⟩
          intro d
          by_contra hsome
          obtain ⟨x, hx⟩ := Option.ne_none_iff_exists'.mp hsome
          obtain ⟨g, rfl, hlg, -⟩ := h.exists_live hx
          refine hlg ?_
          simpa using Fin.find?_eq_none_iff.mp hfind g

theorem sfsGetfilesize_simulates (hs : Stocked s) (h : Represents s t) (hn : Short n) :
    Step limits t (.size n) (sfsGetfilesize n s) [] t := by
  cases hbad : badLength (wrap32 n.length) with
  | true =>
      rw [sfsGetfilesize, if_pos hbad]
      exact .sizeRefused (Or.inl (not_limits_of_badLength hbad))
  | false =>
      have hlimits := hn.limits hbad
      have hv := validName_of_limits hlimits
      rw [sfsGetfilesize, hbad, if_neg (by decide)]
      cases hfind : findName n s with
      | none => exact .sizeRefused (Or.inr ((h.absent hs hlimits).mpr hfind))
      | some f =>
          have hholds := (hs.findName_eq_some hlimits).mp hfind
          have hl := hholds.live hv
          dsimp only
          rw [← length_contents_cast hs hl]
          exact .sized hlimits (h.live hl hholds hv.2) rfl

theorem sfsRemove_simulates (hs : Stocked s) (h : Represents s t) (hn : Short n)
    (hrem : sfsRemove junk n s = .ok (ret, s')) (hsaved : Saved s') :
    Stocked s' ∧ ∃ t', Step limits t (.remove n) ret [] t' ∧ Represents s' t' := by
  rcases sfsRemove_cases hs.toNoSharing hrem with
    ⟨rfl, rfl, hno⟩ | ⟨f, fl, p, hgood, hfind, rfl, rfl, -⟩
  · refine ⟨hs, t, .removeRefused ?_, h⟩
    cases hbad : badLength (wrap32 n.length) with
    | true => exact Or.inl (not_limits_of_badLength hbad)
    | false =>
        refine Or.inr ((h.absent hs (hn.limits hbad)).mpr ?_)
        rw [← Option.not_isSome_iff_eq_none]
        exact fun hsome => hno ⟨hbad, hsome⟩
  · have hlimits := hn.limits hgood
    have hv := validName_of_limits hlimits
    have hholds := (hs.findName_eq_some hlimits).mp hfind
    have hl := hholds.live hv
    have hgone : ¬ (s.eraseFile f fl p).Live f := by
      rw [Live, filename_eraseFile, if_pos rfl, Function.update_self]
      exact fun hne => hne rfl
    refine ⟨hs.of_spares hsaved fun g hg => eraseFile_spares s fl p ?_, _,
      .removed hlimits (h.live hl hholds hv.2) rfl,
      h.remove (fun g hg => (eraseFile_spares s fl p hg).view hs) hgone⟩
    rintro rfl
    rcases hg with hlive | hopen
    · exact hgone hlive
    · rw [openFDTCache_eraseFile, if_pos rfl] at hopen
      omega

end OsConcepts.Sfs
