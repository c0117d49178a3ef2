import OsConcepts.Proofs.Sharing

/-!
# The directory as names

A name goes into its slot through `strncpy`, which pads it to the 35 bytes of
the field, and is looked up with `strcmp`, which does not stop at them: a name
that fills its field has its terminator in the first byte of the next slot, and
the last one in the listing's location. `Named` is the state of the directory in
which the lookup nevertheless finds every name: slots hold padded names, no two
the same, and behind a name that fills its field there is a NUL.
-/

namespace OsConcepts.Sfs

open OsConcepts

variable {s s' : Sfs} {f g : Fin 300} {name name' : CString} {fd count ret : Int}

/-! ## Slots -/

/-- The lengths the calls accept. -/
def ValidName (name : CString) : Prop := 1 ≤ name.length ∧ name.length ≤ 35

theorem ValidName.badLength (h : ValidName name) : badLength (wrap32 name.length) = false := by
  have h₁ := h.1
  have h₂ := h.2
  rw [wrap32_of_range ⟨by omega, by omega⟩]
  simp only [Sfs.badLength, Bool.or_eq_false_iff, decide_eq_false_iff_not]
  omega

/-- A slot holds a name as `strncpy` leaves it. -/
def Holds (s : Sfs) (f : Fin 300) (name : CString) : Prop :=
  s.filename f = fun i : Fin 35 => strncpy name.image 35 i

theorem Holds.byte (h : Holds s f name) (i : Fin 35) : s.filename f i = name.image i := by
  have heq := congrFun h i
  rwa [strncpy_image name i.isLt] at heq

theorem Holds.live (h : Holds s f name) (hv : ValidName name) : s.Live f := by
  show s.filename f 0 ≠ 0
  rw [h.byte]
  exact CString.image_of_lt hv.1

theorem Holds.congr (h : Holds s f name) (heq : s'.filename f = s.filename f) :
    Holds s' f name := heq.trans h

/-- Names with the same bytes in memory are padded alike. -/
theorem Holds.of_image (h : Holds s f name') (heq : ∀ i, i < 35 → name'.image i = name.image i) :
    Holds s f name := by
  refine h.trans (funext fun i => ?_)
  rw [strncpy_image name' i.isLt, strncpy_image name i.isLt, heq i i.isLt]

theorem holds_createFile (s : Sfs) (f : Fin 300) (name : CString) :
    Holds (s.createFile f name) f name := by
  show (s.createFile f name).filename f = _
  rw [filename_createFile, if_pos rfl]

/-! ## The byte behind a slot -/

/-- The byte `strcmp` reads after the 35 of a slot. -/
def byteBehind (s : Sfs) (f : Fin 300) : Byte := s.rootDirectoryCache.image (35 * f + 35)

theorem byteBehind_of_next {g : Fin 300} (h : g.val = f.val + 1) :
    s.byteBehind f = s.filename g 0 := by
  have heq : 35 * f.val + 35 = 35 * g.val := by omega
  show s.rootDirectoryCache.image (35 * f + 35) = _
  rw [heq, image_filename_zero]

theorem byteBehind_last (hl : s.rootDirectoryCache.location = 0) (h : f.val = 299) :
    s.byteBehind f = 0 := by
  have hbyte : intByte 0 0 = 0 := by decide
  show s.rootDirectoryCache.image (35 * f + 35) = 0
  rw [h, RootDirectory.image, dif_neg (by omega), if_pos (by omega), hl]
  exact hbyte

/-- `strcmp` sees the bytes of the slot up to the length of the name, and a NUL
there. -/
theorem strcmpEq_slot (hv : ValidName name) :
    strcmpEq s.rootDirectoryCache.image (35 * f) name.bytes = true ↔
      (∀ i : Fin 35, i.val < name.length → s.filename f i = name.image i) ∧
      s.rootDirectoryCache.image (35 * f + name.length) = 0 := by
  have hlen : name.bytes.length = name.length := rfl
  have hmax := hv.2
  rw [strcmpEq_iff]
  show (_ ∧ s.rootDirectoryCache.image (35 * f + name.length) = 0) ↔ _
  refine and_congr_left fun _ => ⟨fun h i hi => ?_, fun h i hi => ?_⟩
  · have hbyte := h i (by omega)
    rw [RootDirectory.image_entry] at hbyte
    exact hbyte.trans (Mem.ofList_apply _).symm
  · have hbyte := h ⟨i, by omega⟩ (by simp only; omega)
    rw [← Mem.ofList_apply hi]
    refine Eq.trans ?_ hbyte
    exact s.rootDirectoryCache.image_entry f ⟨i, by omega⟩

/-! ## Directories that resolve their names -/

structure Named (s : Sfs) : Prop where
  padded : ∀ f, s.Live f → ∃ name, ValidName name ∧ Holds s f name
  unique : ∀ f g, s.Live f → s.filename f = s.filename g → f = g
  terminated : ∀ f, s.Live f → s.filename f 34 ≠ 0 → s.byteBehind f = 0
  location : s.rootDirectoryCache.location = 0

theorem Named.congr (h : Named s) (heq : s'.rootDirectoryCache = s.rootDirectoryCache) :
    Named s' := by
  have hname : ∀ f, s'.filename f = s.filename f := fun f => by rw [filename, heq]; rfl
  have hlive : ∀ f, s'.Live f ↔ s.Live f := by
    intro f
    show s'.filename f 0 ≠ 0 ↔ _
    rw [hname]
    exact Iff.rfl
  exact
    { padded := by
        intro f hl
        obtain ⟨name, hv, hholds⟩ := h.padded f ((hlive f).mp hl)
        exact ⟨name, hv, hholds.congr (hname f)⟩
      unique := by
        intro f g hl hfg
        rw [hname, hname] at hfg
        exact h.unique f g ((hlive f).mp hl) hfg
      terminated := by
        intro f hl hfull
        rw [hname] at hfull
        show s'.rootDirectoryCache.image (35 * f + 35) = 0
        rw [heq]
        exact h.terminated f ((hlive f).mp hl) hfull
      location := by rw [heq]; exact h.location }

/-- The comparison decides whether the slot holds the name. -/
theorem Named.strcmpEq_iff (h : Named s) (hv : ValidName name) :
    strcmpEq s.rootDirectoryCache.image (35 * f) name.bytes = true ↔ Holds s f name := by
  have hpos := hv.1
  have hmax := hv.2
  rw [strcmpEq_slot hv]
  constructor
  · intro ⟨hbytes, hend⟩
    have hl : s.Live f := by
      show s.filename f 0 ≠ 0
      rw [hbytes 0 hpos]
      exact CString.image_of_lt hpos
    obtain ⟨name', hv', hholds⟩ := h.padded f hl
    refine hholds.of_image ?_
    intro i hi
    have hslot : ∀ j : Fin 35, s.filename f j = name'.image j := hholds.byte
    by_cases hlt : i < name.length
    · rw [← hbytes ⟨i, hi⟩ hlt, hslot ⟨i, hi⟩]
    · -- Past its end the name is padded, and so is what the slot holds.
      have hnul : s.filename f ⟨name.length, by omega⟩ = 0 := by
        rw [← hend]
        exact (s.rootDirectoryCache.image_entry f ⟨name.length, by omega⟩).symm
      rw [hslot] at hnul
      have hshort : name'.length ≤ name.length := by
        by_contra hlong
        exact CString.image_of_lt (by simp only; omega) hnul
      rw [CString.image_of_ge (by omega), CString.image_of_ge (by omega)]
  · intro hholds
    refine ⟨fun i _ => hholds.byte i, ?_⟩
    by_cases hfull : name.length = 35
    · rw [hfull]
      refine h.terminated f (hholds.live hv) ?_
      rw [hholds.byte]
      exact CString.image_of_lt (by rw [hfull]; decide)
    · have hslot := hholds.byte ⟨name.length, by omega⟩
      rw [CString.image_of_ge (Nat.le_refl _)] at hslot
      exact (s.rootDirectoryCache.image_entry f ⟨name.length, by omega⟩).trans hslot

/-- The lookup finds the slot that holds the name. -/
theorem Named.findName_eq_some (h : Named s) (hv : ValidName name) :
    findName name s = some f ↔ Holds s f name := by
  show Fin.find? (fun g => strcmpEq s.rootDirectoryCache.image (35 * g) name.bytes) = some f ↔ _
  rw [Fin.find?_eq_some_iff, h.strcmpEq_iff hv]
  refine ⟨fun hfind => hfind.1, fun hholds => ⟨hholds, fun g hg => ?_⟩⟩
  refine Bool.eq_false_iff.mpr ?_
  intro hmatch
  have hholds' := (h.strcmpEq_iff hv).mp hmatch
  have := h.unique g f (hholds'.live hv) (hholds'.trans hholds.symm)
  omega

theorem Named.findName_eq_none (h : Named s) (hv : ValidName name)
    (hnone : findName name s = none) : ¬ Holds s f name := by
  intro hholds
  rw [(h.findName_eq_some hv).mpr hholds] at hnone
  cases hnone

/-! ## What the calls do to it -/

/-- The new name does not run into a neighbour: behind a slot that is filled to
its last byte no name is put, and no such name is put before another. -/
def Apart (s : Sfs) (f : Fin 300) (name : CString) : Prop :=
  (name.length = 35 → ∀ g : Fin 300, g.val = f.val + 1 → ¬ s.Live g) ∧
    ∀ g : Fin 300, g.val + 1 = f.val → s.Live g → s.filename g 34 = 0

@[simp] theorem location_setFilename (s : Sfs) (f : Fin 300) (n : Fin 35 → Byte) :
    (s.setFilename f n).rootDirectoryCache.location = s.rootDirectoryCache.location := (rfl)

theorem location_createFile (s : Sfs) (f : Fin 300) (name : CString) :
    (s.createFile f name).rootDirectoryCache.location = s.rootDirectoryCache.location := by
  unfold createFile
  simp

theorem Named.createFile (h : Named s) (hv : ValidName name) (hnone : findName name s = none)
    (hempty : ¬ s.Live f) (hapart : Apart s f name) : Named (s.createFile f name) := by
  have hnew := holds_createFile s f name
  have hold : ∀ g, g ≠ f → (s.createFile f name).filename g = s.filename g := by
    intro g hg
    rw [filename_createFile, if_neg hg]
  have hlive : ∀ g, g ≠ f → (s.createFile f name).Live g → s.Live g := by
    intro g hg hl
    have hl' : (s.createFile f name).filename g 0 ≠ 0 := hl
    rwa [hold g hg] at hl'
  refine ⟨fun g hl => ?_, fun g g' hl heq => ?_, fun g hl hfull => ?_, ?_⟩
  · by_cases hg : g = f
    · exact ⟨name, hv, by rw [hg]; exact hnew⟩
    · obtain ⟨name', hv', hholds⟩ := h.padded g (hlive g hg hl)
      exact ⟨name', hv', hholds.congr (hold g hg)⟩
  · by_cases hg : g = f <;> by_cases hg' : g' = f
    · rw [hg, hg']
    · subst hg
      rw [hold g' hg'] at heq
      exact absurd (heq.symm.trans hnew) (h.findName_eq_none hv hnone)
    · subst hg'
      rw [hold g hg] at heq
      exact absurd (heq.trans hnew) (h.findName_eq_none hv hnone)
    · rw [hold g hg, hold g' hg'] at heq
      exact h.unique g g' (hlive g hg hl) heq
  · -- Either there is a next slot, with or without the new name, or this is the last.
    have hlt := g.isLt
    by_cases hlast : g.val = 299
    · exact byteBehind_last ((location_createFile s f name).trans h.location) hlast
    · have hnext : ((⟨g.val + 1, by omega⟩ : Fin 300)).val = g.val + 1 := rfl
      rw [byteBehind_of_next hnext]
      by_cases hgf : g = f
      · subst hgf
        rw [hnew.byte] at hfull
        have hlen : name.length = 35 := by
          have hmax := hv.2
          by_contra hne
          exact hfull (CString.image_of_ge (by show name.length ≤ 34; omega))
        have hdead := hapart.1 hlen _ hnext
        have hne : (⟨g.val + 1, by omega⟩ : Fin 300) ≠ g := by
          intro h
          have := congrArg Fin.val h
          simp only at this
          omega
        rw [hold _ hne]
        exact not_not.mp hdead
      · rw [hold g hgf] at hfull
        have hl' := hlive g hgf hl
        have hne : (⟨g.val + 1, by omega⟩ : Fin 300) ≠ f := fun heq =>
          hfull (hapart.2 g (by rw [← heq]) hl')
        rw [hold _ hne, ← byteBehind_of_next (s := s) hnext]
        exact h.terminated g hl' hfull
  · rw [location_createFile, h.location]

theorem location_eraseFile (s : Sfs) (f : Fin 300) (fl : Block) (p : Nat) :
    (s.eraseFile f fl p).rootDirectoryCache.location = s.rootDirectoryCache.location := by
  unfold eraseFile
  rw [rootDirectoryCache_writeINodeTable, rootDirectoryCache_writeFreeBlockList,
    rootDirectoryCache_writeRootDirectory, location_setFilename,
    rootDirectoryCache_setReadWritePointer, rootDirectoryCache_setINode, rootDirectoryCache_seek]

theorem Named.eraseFile (h : Named s) {fl : Block} {p : Nat} : Named (s.eraseFile f fl p) := by
  have hgone : (s.eraseFile f fl p).filename f 0 = 0 := by
    rw [filename_eraseFile, if_pos rfl, Function.update_self]
  have hold : ∀ g, g ≠ f → (s.eraseFile f fl p).filename g = s.filename g := by
    intro g hg
    rw [filename_eraseFile, if_neg hg]
  have hlive : ∀ g, (s.eraseFile f fl p).Live g → g ≠ f ∧ s.Live g := by
    intro g hl
    have hl' : (s.eraseFile f fl p).filename g 0 ≠ 0 := hl
    have hg : g ≠ f := fun hg => hl' (by rw [hg, hgone])
    exact ⟨hg, by rwa [hold g hg] at hl'⟩
  refine ⟨fun g hl => ?_, fun g g' hl heq => ?_, fun g hl hfull => ?_, ?_⟩
  · obtain ⟨hg, hl'⟩ := hlive g hl
    obtain ⟨name', hv', hholds⟩ := h.padded g hl'
    exact ⟨name', hv', hholds.congr (hold g hg)⟩
  · obtain ⟨hg, hl'⟩ := hlive g hl
    have hl₀ : (s.eraseFile f fl p).filename g 0 ≠ 0 := hl
    have hg' : g' ≠ f := fun hg' => hl₀ (by rw [heq, hg', hgone])
    rw [hold g hg, hold g' hg'] at heq
    exact h.unique g g' hl' heq
  · obtain ⟨hg, hl'⟩ := hlive g hl
    rw [hold g hg] at hfull
    have hnul := h.terminated g hl' hfull
    have hlt := g.isLt
    by_cases hlast : g.val = 299
    · exact byteBehind_last ((location_eraseFile s f fl p).trans h.location) hlast
    · have hnext : ((⟨g.val + 1, by omega⟩ : Fin 300)).val = g.val + 1 := rfl
      rw [byteBehind_of_next hnext] at hnul ⊢
      by_cases hf : (⟨g.val + 1, by omega⟩ : Fin 300) = f
      · rw [hf]
        exact hgone
      · rwa [hold _ hf]
  · rw [location_eraseFile, h.location]

theorem Fresh.named (h : Fresh s) : Named s := by
  have hdead : ∀ f, ¬ s.Live f := fun f hl => hl (h.names f)
  exact ⟨fun f hl => absurd hl (hdead f), fun f _ hl => absurd hl (hdead f),
    fun f hl => absurd hl (hdead f), h.location⟩

end OsConcepts.Sfs
