import OsConcepts.Proofs.Names

/-!
# Listing the directory

`sfs_getnextfilename` sets the location behind the name it returns and does not
read it again: every call starts over and returns the first live slot. So the
loop of its callers never gets past that slot. It ends at once when the slot is
0, whose index is also the end marker, and otherwise it does not end. Only an
empty directory is listed as it should be (`lists_iff_empty`).
-/

namespace OsConcepts.Sfs

open OsConcepts

variable {s s' : Sfs} {f g : Fin 300} {buf : Mem}

/-- `while (sfs_getnextfilename(buf))`, followed for `n` calls: the buffer after
each call that returned non-zero, and the state the last call has left. -/
def listLoop : Nat → Mem → Sfs → Option (List Mem × Sfs)
  | 0, _, _ => none
  | n + 1, buf, s =>
      let r := sfsGetnextfilename buf s
      if r.1 = 0 then some ([], r.2.2)
      else (listLoop n r.2.1 r.2.2).map fun x => (r.2.1 :: x.1, x.2)

/-- The buffer holds the name of a file. -/
def HasName (s : Sfs) (buf : Mem) (f : Fin 300) : Prop := ∀ i : Fin 35, buf i = s.filename f i

/-- The loop ends, has seen every live file once and nothing else, and leaves
the location at the start. -/
def Lists (buf : Mem) (s : Sfs) : Prop :=
  ∃ n l s', listLoop n buf s = some (l, s') ∧
    l.length = (Finset.univ.filter fun f => s.Live f).card ∧
    (∀ f, s.Live f → ∃! i : Fin l.length, HasName s (l.get i) f) ∧
    s'.rootDirectoryCache.location = 0

/-- A buffer that holds a name of a length the code accepts. -/
def ValidBuffer (buf : Mem) : Prop := badLength (intStrlen buf) = false

/-! ## One call -/

/-- The first slot in use. -/
def FirstLive (s : Sfs) (f : Fin 300) : Prop := s.Live f ∧ ∀ g, g < f → ¬ s.Live g

theorem exists_firstLive (h : s.Live g) : ∃ f, FirstLive s f := by
  obtain ⟨f, hf⟩ := Option.isSome_iff_exists.mp
    (Fin.isSome_find?_iff (p := fun g => s.filename g 0 != 0).mpr ⟨g, by simpa [Live] using h⟩)
  obtain ⟨hlive, hfirst⟩ := Fin.find?_eq_some_iff.mp hf
  refine ⟨f, by simpa [Live] using hlive, ?_⟩
  intro g hg
  simpa [Live] using hfirst g hg

theorem FirstLive.find (h : FirstLive s f) :
    Fin.find? (fun g => s.filename g 0 != 0) = some f := by
  refine Fin.find?_eq_some_iff.mpr ⟨by simpa [Live] using h.1, fun g hg => ?_⟩
  simpa [Live] using h.2 g hg

theorem FirstLive.congr (h : FirstLive s f) (heq : ∀ g, s'.filename g = s.filename g) :
    FirstLive s' f := by
  have hlive : ∀ g, s'.Live g ↔ s.Live g := by
    intro g
    show s'.filename g 0 ≠ 0 ↔ _
    rw [heq]
    exact Iff.rfl
  exact ⟨(hlive f).mpr h.1, fun g hg hl => h.2 g hg ((hlive g).mp hl)⟩

/-- With files there, a call returns -1 or the first of them. -/
theorem sfsGetnextfilename_first (h : FirstLive s f) (buf : Mem) :
    ((sfsGetnextfilename buf s).1 = -1 ∧ ¬ ValidBuffer buf ∨
      (sfsGetnextfilename buf s).1 = (f : Nat)) ∧
    FirstLive (sfsGetnextfilename buf s).2.2 f := by
  rw [sfsGetnextfilename]
  split
  · next hbad => exact ⟨Or.inl ⟨rfl, fun hv => by rw [hv] at hbad; cases hbad⟩, h⟩
  · rw [h.find]
    exact ⟨Or.inr rfl, h.congr fun g => by simp⟩

theorem sfsGetnextfilename_empty (h : ∀ f, ¬ s.Live f) (hv : ValidBuffer buf) :
    (sfsGetnextfilename buf s).1 = 0 ∧
      (sfsGetnextfilename buf s).2.2.rootDirectoryCache.location = 0 := by
  have hnone : Fin.find? (fun g => s.filename g 0 != 0) = none := by
    refine Fin.find?_eq_none_iff.mpr fun g => ?_
    simpa [Live] using h g
  rw [sfsGetnextfilename, hv, hnone]
  exact ⟨rfl, rfl⟩

/-! ## The loop -/

/-- With a first file in a slot past 0, no call ever returns zero. -/
theorem listLoop_never (hf : f ≠ 0) : ∀ {n : Nat} {buf : Mem} {s : Sfs}, FirstLive s f →
    listLoop n buf s = none := by
  have hpos : ((f : Nat) : Int) ≠ 0 := fun h => hf (Fin.ext (by simpa using h))
  intro n
  induction n with
  | zero => intro buf s _; rfl
  | succ n ih =>
      intro buf s h
      obtain ⟨hret, hnext⟩ := sfsGetnextfilename_first h buf
      have hne : (sfsGetnextfilename buf s).1 ≠ 0 := by
        rcases hret with ⟨hret, -⟩ | hret
        · rw [hret]; decide
        · rw [hret]; exact hpos
      simp only [listLoop]
      rw [if_neg hne, ih hnext]
      rfl

theorem listLoop_of_zero {n : Nat} (h : (sfsGetnextfilename buf s).1 = 0) :
    listLoop (n + 1) buf s = some ([], (sfsGetnextfilename buf s).2.2) := by
  simp only [listLoop]
  rw [if_pos h]

/-- A listing that is right has nothing to list. -/
theorem empty_of_lists (hv : ValidBuffer buf) (h : Lists buf s) : ∀ f, ¬ s.Live f := by
  intro g hg
  obtain ⟨n, l, s', hloop, hlen, -⟩ := h
  obtain ⟨f, hfirst⟩ := exists_firstLive hg
  by_cases hf : f = 0
  · -- Slot 0 reads as the end of the listing, and nothing has been listed.
    subst hf
    have hret : (sfsGetnextfilename buf s).1 = 0 := by
      rcases (sfsGetnextfilename_first hfirst buf).1 with ⟨-, hno⟩ | hret
      · exact absurd hv hno
      · exact hret
    cases n with
    | zero => cases hloop
    | succ n =>
        rw [listLoop_of_zero hret] at hloop
        obtain ⟨rfl, -⟩ := Prod.mk.inj (Option.some.inj hloop)
        have hmem : g ∈ Finset.univ.filter fun f => s.Live f := by simp [hg]
        rw [Finset.card_eq_zero.mp hlen.symm] at hmem
        exact absurd hmem (Finset.notMem_empty g)
  · rw [listLoop_never hf hfirst] at hloop
    cases hloop

theorem lists_of_empty (hv : ValidBuffer buf) (h : ∀ f, ¬ s.Live f) : Lists buf s := by
  obtain ⟨hret, hloc⟩ := sfsGetnextfilename_empty h hv
  refine ⟨1, [], _, listLoop_of_zero hret, ?_, fun f hf => absurd hf (h f), hloc⟩
  rw [Finset.filter_eq_empty_iff.mpr fun f _ => h f]
  rfl

/-- The listing is right when there is nothing to list, and only then. -/
theorem lists_iff_empty (hv : ValidBuffer buf) : Lists buf s ↔ ∀ f, ¬ s.Live f :=
  ⟨empty_of_lists hv, lists_of_empty hv⟩

theorem validBuffer_letter {b : Byte} (hb : b ≠ 0) : ValidBuffer (letter b hb).image := by
  have hlen : (letter b hb).length = 1 := rfl
  rw [ValidBuffer, CString.intStrlen_image (by rw [hlen]; decide)]
  exact badLength_letter hb

/-- A fresh directory is listed. -/
theorem lists_formatted : Lists (letter 65 (by decide)).image formatted :=
  (lists_iff_empty (validBuffer_letter (by decide))).mpr fun f hl => hl (formatted_fresh.names f)

/-! ## One file -/

/-- The calls of a program whose names leave room for their terminator. -/
def ShortNameCall : Call → Prop
  | .fopen name => 1 ≤ name.length ∧ name.length ≤ 34
  | .fclose _ => True
  | .fwrite _ _ _ _ => True
  | .remove _ name => 1 ≤ name.length ∧ name.length ≤ 34
  | _ => False

/-- With one file, in slot 0, the loop ends before it has seen it. -/
theorem not_lists_one_file :
    ¬ ∀ s buf, (system.guard fun _ x => ShortNameCall x.1).Reachable s →
      s.rootDirectoryCache.location = 0 → ValidBuffer buf → Lists buf s := by
  intro hall
  have h := formatted_fresh
  have hcreate := h.sfsFopen_letter (b := 65) (by decide)
  have hstart : (system.guard fun _ x => ShortNameCall x.1).Reachable formatted :=
    .start ⟨_, _, rfl⟩
  have hreach : (system.guard fun _ x => ShortNameCall x.1).Reachable
      (formatted.createFile 0 (letter 65 (by decide))) :=
    hstart.step (a := (.fopen (letter 65 (by decide)), _))
      ⟨show 1 ≤ 1 ∧ 1 ≤ 34 by decide, congrArg Except.ok hcreate⟩
  have hlists := hall _ _ hreach ((location_createFile _ _ _).trans h.location)
    (validBuffer_letter (b := 66) (by decide))
  refine empty_of_lists (validBuffer_letter (by decide)) hlists 0 ?_
  exact (holds_createFile formatted 0 (letter 65 (by decide))).live
    (validName_letter (by decide))

end OsConcepts.Sfs
