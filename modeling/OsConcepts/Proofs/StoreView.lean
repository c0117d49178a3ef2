import OsConcepts.Proofs.Remount
import OsConcepts.Proofs.WriteSplice
import OsConcepts.Sfs.Session

/-!
# The files as a program sees them

`files` reads the caches and the disk as a file store: the name in a slot up to
its NUL, the bytes behind the block pointers cut off at the size, and the
position of the descriptor. It makes sense in a state that is `Stocked`: saved
and isolated as for a remount, with names that are found, files that have their
blocks and descriptors inside them.
-/

namespace OsConcepts.Sfs

open OsConcepts FileStore

variable {s s' : Sfs} {f g : Fin 300} {n n' : CString} {t t' : Store CString Byte} {d : Int}

/-! ## The view -/

/-- The name in a slot. -/
def nameIn (s : Sfs) (f : Fin 300) : CString where
  bytes := (List.ofFn (s.filename f)).takeWhile (· ≠ 0)
  no_nul b hb := by simpa using List.all_eq_true.mp List.all_takeWhile b hb

/-- The file in a slot. -/
def view (s : Sfs) (f : Fin 300) : Option (File CString Byte) :=
  if s.Live f then
    some
      { name := s.nameIn f
        bytes := s.contents f
        position := if s.openFDTCache f < 0 then none else some (s.openFDTCache f).toNat }
  else none

/-- The file behind a descriptor. -/
def files (s : Sfs) (d : Int) : Option (File CString Byte) := (slot? d).bind s.view

theorem files_natCast (s : Sfs) (f : Fin 300) : s.files (f : Nat) = s.view f := by
  rw [files, slot?_natCast, Option.bind_some]

theorem Holds.nameIn (h : Holds s f n) (hn : n.length ≤ 35) : s.nameIn f = n := by
  have hlist : List.ofFn (s.filename f) = n.bytes ++ List.replicate (35 - n.length) 0 := by
    refine List.ext_getElem ?_ fun i hi hi' => ?_
    · rw [List.length_ofFn, List.length_append, List.length_replicate]
      show 35 = n.length + _
      omega
    · rw [List.getElem_ofFn, h.byte]
      by_cases hlt : i < n.bytes.length
      · rw [List.getElem_append_left hlt]
        exact Mem.ofList_apply hlt
      · rw [List.getElem_append_right (by omega), List.getElem_replicate]
        exact CString.image_of_ge (by show n.bytes.length ≤ i; omega)
  have hbytes : (List.ofFn (s.filename f)).takeWhile (· ≠ 0) = n.bytes := by
    rw [hlist, List.takeWhile_append_of_pos (fun b hb => by simpa using n.no_nul b hb)]
    simp
  cases n
  simpa [Sfs.nameIn] using hbytes

theorem nameIn_congr (h : s'.filename f = s.filename f) : s'.nameIn f = s.nameIn f := by
  simp only [nameIn, h]

theorem live_congr (h : s'.filename f = s.filename f) : s'.Live f ↔ s.Live f := by
  unfold Live
  rw [h]

theorem view_live (hl : s.Live f) (hname : Holds s f n) (hn : n.length ≤ 35) :
    s.view f = some
      { name := n
        bytes := s.contents f
        position := if s.openFDTCache f < 0 then none else some (s.openFDTCache f).toNat } := by
  rw [view, if_pos hl, hname.nameIn hn]

theorem view_congr (hname : s'.filename f = s.filename f)
    (hcontents : s.Live f → s'.contents f = s.contents f)
    (hposition : s.Live f → s'.openFDTCache f = s.openFDTCache f) : s'.view f = s.view f := by
  by_cases hl : s.Live f
  · rw [view, view, if_pos hl, if_pos ((live_congr hname).mpr hl), nameIn_congr hname,
      hcontents hl, hposition hl]
  · rw [view, view, if_neg hl, if_neg fun h => hl ((live_congr hname).mp h)]

/-- Two slots of one view. -/
theorem files_update (hother : ∀ g, g ≠ f → s'.view g = s.view g) (d : Int) :
    s'.files d = if d = (f : Nat) then s'.view f else s.files d := by
  split
  · next hd => rw [hd, files_natCast]
  · next hd =>
      unfold files
      cases hslot : slot? d with
      | none => rfl
      | some g => exact hother g fun hg => hd (hg ▸ slot?_eq_some.mp hslot)

/-! ## States that make sense as stores -/

/-- Names that the calls find. -/
structure Labelled (s : Sfs) : Prop where
  named : ∀ f, s.Live f → ∃ n, limits.name n ∧ Holds s f n
  distinct : ∀ f g, s.Live f → s.filename f = s.filename g → f = g

structure Stocked (s : Sfs) : Prop extends Saved s, Labelled s where
  backed : ∀ f, s.Live f → Backed s f
  position : ∀ f, 0 ≤ s.openFDTCache f → s.Live f ∧ s.openFDTCache f ≤ (s.iNodes f).size

/-- Where no name is new, it is enough that the files have their blocks and the
descriptors are in place. -/
theorem Stocked.of_names (hs : Stocked s) (hsaved : Saved s')
    (hname : ∀ g, s'.Live g → s'.filename g = s.filename g)
    (hback : ∀ g, s'.Live g → s.Backed g → s'.Backed g)
    (hpos : ∀ g, 0 ≤ s'.openFDTCache g → s'.Live g ∧ s'.openFDTCache g ≤ (s'.iNodes g).size) :
    Stocked s' where
  toSaved := hsaved
  named g hl := by
    obtain ⟨n, hn, hholds⟩ := hs.named g ((live_congr (hname g hl)).mp hl)
    exact ⟨n, hn, hholds.congr (hname g hl)⟩
  distinct g g' hl heq := by
    have hl' : s'.Live g' := by rwa [Live, ← heq]
    rw [hname g hl, hname g' hl'] at heq
    exact hs.distinct g g' ((live_congr (hname g hl)).mp hl) heq
  backed g hl := hback g hl (hs.backed g ((live_congr (hname g hl)).mp hl))
  position := hpos

theorem validName_of_limits (hn : limits.name n) : ValidName n := by
  obtain ⟨hpos, hmax⟩ := hn
  exact ⟨hpos, by omega⟩

/-- Where the listing stands does not matter to short names. -/
theorem Labelled.named_reset (h : Labelled s) : Named (s.setLocation 0) where
  padded f hl := by
    obtain ⟨n, hn, hholds⟩ := h.named f hl
    exact ⟨n, validName_of_limits hn, hholds⟩
  unique f g hl hfg := h.distinct f g hl hfg
  terminated f hl hfull := by
    obtain ⟨n, hn, hholds⟩ := h.named f hl
    refine absurd ?_ hfull
    show s.filename f 34 = 0
    rw [hholds.byte]
    exact CString.image_of_ge hn.2
  location := rfl

theorem findName_setLocation (hn : limits.name n) (l : Int) :
    findName n (s.setLocation l) = findName n s := by
  have hv := validName_of_limits hn
  refine congrArg Fin.find? (funext fun g => ?_)
  have hlen : n.length < 35 := by
    have := hn.2
    omega
  rw [Bool.eq_iff_iff, strcmpEq_slot hv, strcmpEq_slot hv]
  have hend : ∀ s : Sfs, s.rootDirectoryCache.image (35 * g + n.length) =
      s.filename g ⟨n.length, hlen⟩ := fun s => s.rootDirectoryCache.image_entry g ⟨_, hlen⟩
  rw [hend, hend]
  exact Iff.rfl

/-- The lookup finds the slot that holds the name. -/
theorem Labelled.findName_eq_some (h : Labelled s) (hn : limits.name n) :
    findName n s = some f ↔ Holds s f n := by
  rw [← findName_setLocation hn 0]
  exact h.named_reset.findName_eq_some (validName_of_limits hn)

/-- The store is that of the state. -/
def Represents (s : Sfs) (t : Store CString Byte) : Prop := t.file = s.files

theorem Represents.file (h : Represents s t) (d : Int) : t.file d = s.files d := congrFun h d

theorem Represents.slot (h : Represents s t) (f : Fin 300) : t.file (f : Nat) = s.view f := by
  rw [h.file, files_natCast]

/-- The file of a slot in use. -/
theorem Represents.live (h : Represents s t) (hl : s.Live f) (hname : Holds s f n)
    (hn : n.length ≤ 35) : t.file (f : Nat) = some
      { name := n
        bytes := s.contents f
        position := if s.openFDTCache f < 0 then none else some (s.openFDTCache f).toNat } := by
  rw [h.slot, view_live hl hname hn]

/-- A file of the store is in a slot that is in use. -/
theorem Represents.exists_live (h : Represents s t) {x : File CString Byte}
    (hx : t.file d = some x) : ∃ f : Fin 300, d = (f : Nat) ∧ s.Live f ∧ s.view f = some x := by
  rw [h.file, files] at hx
  obtain ⟨f, hslot, hview⟩ := Option.bind_eq_some_iff.mp hx
  refine ⟨f, slot?_eq_some.mp hslot, ?_, hview⟩
  by_contra hl
  rw [view, if_neg hl] at hview
  cases hview

theorem Represents.isOpen (h : Represents s t) (hs : Stocked s) :
    t.IsOpen d ↔ ∃ f, slot? d = some f ∧ 0 ≤ s.openFDTCache f := by
  constructor
  · rintro ⟨x, p, hx, hp⟩
    obtain ⟨f, rfl, hl, hview⟩ := h.exists_live hx
    refine ⟨f, slot?_natCast f, ?_⟩
    rw [view, if_pos hl, Option.some.injEq] at hview
    by_contra hclosed
    rw [← hview, if_pos (by omega)] at hp
    cases hp
  · rintro ⟨f, hslot, hopen⟩
    obtain rfl := slot?_eq_some.mp hslot
    obtain ⟨hl, -⟩ := hs.position f hopen
    obtain ⟨n, hn, hholds⟩ := hs.named f hl
    exact ⟨_, _, h.live hl hholds (validName_of_limits hn).2, if_neg (by omega)⟩

/-- A name is absent if the lookup does not find it. -/
theorem Represents.absent (h : Represents s t) (hs : Stocked s) (hn : limits.name n) :
    t.Absent n ↔ findName n s = none := by
  constructor
  · intro habsent
    cases hfind : findName n s with
    | none => rfl
    | some f =>
        have hholds := (hs.findName_eq_some hn).mp hfind
        exact absurd rfl (habsent _ _
          (h.live (hholds.live (validName_of_limits hn)) hholds (validName_of_limits hn).2))
  · rintro hnone d x hx rfl
    obtain ⟨f, rfl, hl, hview⟩ := h.exists_live hx
    obtain ⟨n, hn', hholds⟩ := hs.named f hl
    rw [view_live hl hholds (validName_of_limits hn').2, Option.some.injEq] at hview
    rw [← hview] at hn hnone
    rw [(hs.findName_eq_some hn').mpr hholds] at hnone
    cases hnone

/-! ## What changes one slot -/

/-- A slot's file is changed and the others are not. -/
theorem Represents.modify (h : Represents s t) {m : File CString Byte → File CString Byte}
    {hm : ∀ x, (m x).name = x.name} (hother : ∀ g, g ≠ f → s'.view g = s.view g)
    (hf : s'.view f = (s.view f).map m) : Represents s' (t.modify (f : Nat) m hm) := by
  refine funext fun d => ?_
  rw [files_update hother, Store.modify]
  dsimp only
  split
  · next hd => rw [hd, hf, h.slot]
  · exact h.file d

theorem Represents.create (h : Represents s t) {habsent : t.Absent n}
    (hother : ∀ g, g ≠ f → s'.view g = s.view g) (hf : s'.view f = some ⟨n, [], some 0⟩) :
    Represents s' (t.create (f : Nat) n habsent) := by
  refine funext fun d => ?_
  rw [files_update hother, Store.create]
  dsimp only
  split
  · exact hf.symm
  · exact h.file d

theorem Represents.remove (h : Represents s t) (hother : ∀ g, g ≠ f → s'.view g = s.view g)
    (hf : ¬ s'.Live f) : Represents s' (t.remove (f : Nat)) := by
  refine funext fun d => ?_
  rw [files_update hother, Store.remove]
  dsimp only
  split
  · rw [view, if_neg hf]
  · exact h.file d

/-- No slot is changed. -/
theorem Represents.same (h : Represents s t) (hview : ∀ g, s'.view g = s.view g) :
    Represents s' t := by
  refine funext fun d => ?_
  rw [h.file]
  unfold files
  cases slot? d with
  | none => rfl
  | some g => exact (hview g).symm

end OsConcepts.Sfs
