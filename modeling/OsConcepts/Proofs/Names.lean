import OsConcepts.Proofs.Directory

/-!
# A name keeps its slot

`Resolves` is what the users of the file system rely on: a name has one slot,
and from the `sfs_fopen` that returned it until the name is removed every call
finds that slot. The lookup keeps this up as long as no name that fills its
field comes to stand before another name (`Apart`).
-/

namespace OsConcepts.Sfs

open OsConcepts

variable {s s' : Sfs} {f g : Fin 300} {name name' : CString} {c : Call} {fd ret : Int}
  {tr : List (Call × Int)}

/-- The calls of a program that only opens, closes, writes, removes and asks for
sizes, by names the code accepts. -/
def NameCall : Call → Prop
  | .fopen name => ValidName name
  | .fclose _ => True
  | .fwrite _ _ _ _ => True
  | .getfilesize name => ValidName name
  | .remove _ name => ValidName name
  | _ => False

def naming : System Sfs (Call × Int) := system.guard fun _ x => NameCall x.1

/-- A call that creates a file keeps the names apart. -/
def KeepsApart (s : Sfs) : Call → Prop
  | .fopen name => ∀ f, findName name s = none → findEmpty s = some f → Apart s f name
  | _ => True

/-- `sfs_fopen` of the name has returned `fd`, and the name has not been removed
since. The latest call comes first. -/
def OpenedAs (name : CString) (fd : Int) (tr : List (Call × Int)) : Prop :=
  ∃ before after, tr = after ++ (Call.fopen name, fd) :: before ∧ 0 ≤ fd ∧
    ∀ junk, (Call.remove junk name, 0) ∉ after

theorem OpenedAs.of_cons {x : Call × Int} (h : OpenedAs name fd (x :: tr)) :
    x = (.fopen name, fd) ∧ 0 ≤ fd ∨
      OpenedAs name fd tr ∧ ∀ junk, x ≠ (.remove junk name, 0) := by
  obtain ⟨before, after, heq, hfd, hno⟩ := h
  cases after with
  | nil => exact Or.inl ⟨(List.cons.inj heq).1, hfd⟩
  | cons y after =>
      obtain ⟨rfl, rfl⟩ := List.cons.inj heq
      refine Or.inr ⟨⟨before, after, rfl, hfd, fun junk hmem => hno junk ?_⟩, fun junk hx => ?_⟩
      · exact List.mem_cons_of_mem x hmem
      · exact hno junk (by rw [← hx]; exact List.mem_cons_self)

/-- Names resolve: one slot for a name, and an opened one is found where it was
opened by every call. -/
structure Resolves (tr : List (Call × Int)) (s : Sfs) : Prop where
  single : ∀ name f g, ValidName name → Holds s f name → Holds s g name → f = g
  opened : ∀ name fd, ValidName name → OpenedAs name fd tr → ∃ f, slot? fd = some f ∧
    (sfsFopen name s).1 = fd ∧ sfsGetfilesize name s = (s.iNodes f).size ∧
    ∀ junk, ∃ s', sfsRemove junk name s = .ok (0, s') ∧
      (∀ g, s'.Live g ↔ s.Live g ∧ g ≠ f) ∧
      ∀ g, g ≠ f → s'.filename g = s.filename g ∧ s'.iNodes g = s.iNodes g

/-! ## A step -/

/-- What a call does to the directory: nothing, a new name, or a name less. -/
theorem nameCall_cases (hs : Owned s) (hn : NameCall c) (h : c.exec s = .ok (ret, s')) :
    s'.rootDirectoryCache = s.rootDirectoryCache ∨
    (∃ name f, c = .fopen name ∧ findName name s = none ∧ findEmpty s = some f ∧
      s' = s.createFile f name) ∨
    ∃ junk name f fl p, c = .remove junk name ∧ ret = 0 ∧ findName name s = some f ∧
      s' = s.eraseFile f fl p := by
  cases c with
  | fopen name =>
      simp only [Call.exec] at h
      rcases sfsFopen_cases (Except.ok.inj h) with
        ⟨-, rfl⟩ | ⟨f, -, -, -, rfl⟩ | ⟨f, -, hname, hempty, -, rfl⟩
      · exact Or.inl rfl
      · exact Or.inl (by simp)
      · exact Or.inr (Or.inl ⟨name, f, rfl, hname, hempty, rfl⟩)
  | fclose fd =>
      simp only [Call.exec] at h
      rcases sfsFclose_cases (Except.ok.inj h) with ⟨-, rfl⟩ | ⟨f, -, -, -, rfl⟩
      · exact Or.inl rfl
      · exact Or.inl (by simp)
  | fwrite junk fd buf count =>
      simp only [Call.exec] at h
      rcases sfsFwrite_confined_or_stray hs h with
        ⟨rfl, -⟩ | ⟨f, -, ⟨hconf, -⟩ | ⟨-, s₁, b, hconf, -, -, -, -, rfl⟩⟩
      · exact Or.inl rfl
      · exact Or.inl hconf.directory
      · exact Or.inl hconf.directory
  | getfilesize path =>
      simp only [Call.exec] at h
      obtain ⟨-, rfl⟩ := Prod.mk.inj (Except.ok.inj h)
      exact Or.inl rfl
  | remove junk name =>
      simp only [Call.exec] at h
      rcases sfsRemove_cases hs.toNoSharing h with
        ⟨-, rfl, -⟩ | ⟨f, fl, p, -, hname, hret, rfl, -⟩
      · exact Or.inl rfl
      · exact Or.inr (Or.inr ⟨junk, name, f, fl, p, rfl, hret, hname, rfl⟩)
  | fseek fd loc => exact absurd hn id
  | fread junk fd count => exact absurd hn id
  | getnextfilename fname => exact absurd hn id

theorem exec_named (hs : Owned s) (hd : Named s) (hn : NameCall c) (hk : KeepsApart s c)
    (h : c.exec s = .ok (ret, s')) : Named s' := by
  rcases nameCall_cases hs hn h with
    hsame | ⟨name, f, rfl, hname, hempty, rfl⟩ | ⟨junk, name, f, fl, p, rfl, -, -, rfl⟩
  · exact hd.congr hsame
  · exact hd.createFile hn hname (not_live_of_findEmpty hempty) (hk f hname hempty)
  · exact hd.eraseFile

/-- Two names in one slot are the same name. -/
theorem Holds.name_unique (h : Holds s f name) (h' : Holds s f name') (hv : ValidName name)
    (hv' : ValidName name') : name = name' := by
  have himage : ∀ i, name.image i = name'.image i := by
    intro i
    have hmax := hv.2
    have hmax' := hv'.2
    by_cases hi : i < 35
    · exact (h.byte ⟨i, hi⟩).symm.trans (h'.byte ⟨i, hi⟩)
    · rw [CString.image_of_ge (by omega), CString.image_of_ge (by omega)]
  have hlen : ∀ {a b : CString}, (∀ i, a.image i = b.image i) → a.length ≤ b.length := by
    intro a b hab
    by_contra hlt
    exact CString.image_of_lt (s := a) (i := b.length) (by omega)
      ((hab _).trans (CString.image_of_ge (Nat.le_refl _)))
  have hbytes : name.bytes = name'.bytes := by
    refine List.ext_getElem
      (Nat.le_antisymm (hlen himage) (hlen fun i => (himage i).symm)) ?_
    intro i hi hi'
    rw [← Mem.ofList_apply hi, ← Mem.ofList_apply hi']
    exact himage i
  cases name
  cases name'
  simp only [CString.mk.injEq]
  exact hbytes

/-- A slot keeps its name until the name is removed. -/
theorem exec_holds (hs : Owned s) (hd : Named s) (hn : NameCall c)
    (h : c.exec s = .ok (ret, s')) (hv : ValidName name) (hholds : Holds s f name)
    (hno : ∀ junk, (c, ret) ≠ (.remove junk name, 0)) : Holds s' f name := by
  rcases nameCall_cases hs hn h with
    hsame | ⟨name', g, rfl, -, hempty, rfl⟩ | ⟨junk, name', g, fl, p, rfl, rfl, hname, rfl⟩
  · refine hholds.congr ?_
    show s'.rootDirectoryCache.directoryEntries f = _
    rw [hsame]
    rfl
  · have hfg : f ≠ g := fun hfg =>
      not_live_of_findEmpty hempty (hfg ▸ hholds.live hv)
    exact hholds.congr (by rw [filename_createFile, if_neg hfg])
  · have hv' : ValidName name' := hn
    have hfg : f ≠ g := by
      intro hfg
      subst hfg
      have hname' := (hd.findName_eq_some hv').mp hname
      exact hno junk (by rw [hholds.name_unique hname' hv hv'])
    exact hholds.congr (by rw [filename_eraseFile, if_neg hfg])

/-- The slot `sfs_fopen` returns holds the name afterwards. -/
theorem sfsFopen_holds (hd : Named s) (hv : ValidName name) (hfd : 0 ≤ fd)
    (h : sfsFopen name s = (fd, s')) : ∃ f, slot? fd = some f ∧ Holds s' f name := by
  rcases sfsFopen_cases h with
    ⟨hret, -⟩ | ⟨f, -, hname, hret, rfl⟩ | ⟨f, -, -, -, hret, rfl⟩
  · omega
  · refine ⟨f, by rw [hret, slot?_natCast], ?_⟩
    exact ((hd.findName_eq_some hv).mp hname).congr (by simp)
  · exact ⟨f, by rw [hret, slot?_natCast], holds_createFile s f name⟩

/-! ## Runs -/

/-- The invariant behind `Resolves`. -/
structure Resolving (tr : List (Call × Int)) (s : Sfs) : Prop where
  owned : Owned s
  named : Named s
  located : ∀ name fd, ValidName name → OpenedAs name fd tr →
    ∃ f, slot? fd = some f ∧ Holds s f name

/-- The calls that keep names apart and do not save the directory over an
indirect block. -/
def namingApart : System Sfs (Call × Int) :=
  naming.guard fun s x => KeepsApart s x.1 ∧ (SavesDirectory s x.1 → IndirectApart s)

theorem resolving_of_apart (h : namingApart.Run tr s) : Resolving tr s := by
  refine System.Run.induction (I := Resolving) (fun s hinit => ?_)
    (fun tr s x s' hI hstep => ?_) h
  · obtain ⟨junk, s₀, rfl⟩ := hinit
    have hfresh := mksfs_fresh junk s₀
    refine ⟨hfresh.owned, hfresh.named, ?_⟩
    intro name fd _ hopened
    obtain ⟨before, after, heq, -⟩ := hopened
    exact absurd heq.symm (by simp)
  · obtain ⟨⟨hk, hdir⟩, hn, hexec⟩ := hstep
    refine ⟨exec_owned hI.owned hdir hexec, exec_named hI.owned hI.named hn hk hexec,
      ?_⟩
    intro name fd hv hopened
    rcases hopened.of_cons with ⟨rfl, hfd⟩ | ⟨hbefore, hno⟩
    · exact sfsFopen_holds hI.named hv hfd (Except.ok.inj hexec)
    · obtain ⟨f, hslot, hholds⟩ := hI.located name fd hv hbefore
      exact ⟨f, hslot, exec_holds hI.owned hI.named hn hexec hv hholds hno⟩

theorem Named.live_eraseFile {fl : Block} {p : Nat} (f g : Fin 300) :
    (s.eraseFile f fl p).Live g ↔ s.Live g ∧ g ≠ f := by
  show (s.eraseFile f fl p).filename g 0 ≠ 0 ↔ s.filename g 0 ≠ 0 ∧ _
  rw [filename_eraseFile]
  by_cases hg : g = f
  · simp [hg]
  · simp [hg]

theorem Resolving.resolves (h : Resolving tr s) : Resolves tr s where
  single name f g hv hf hg := h.named.unique f g (hf.live hv) (hf.trans hg.symm)
  opened name fd hv hopened := by
    obtain ⟨f, hslot, hholds⟩ := h.located name fd hv hopened
    have hfind := (h.named.findName_eq_some hv).mpr hholds
    have hfd : fd = (f : Nat) := slot?_eq_some.mp hslot
    refine ⟨f, hslot, ?_, ?_, fun junk => ?_⟩
    · rw [sfsFopen, hv.badLength, hfind]
      exact hfd.symm
    · rw [sfsGetfilesize, hv.badLength, hfind]
      rfl
    · obtain ⟨⟨r, s'⟩, hrem⟩ := sfsRemove_ok junk name h.owned.toNoSharing
      rcases sfsRemove_cases h.owned.toNoSharing hrem with
        ⟨-, -, hno⟩ | ⟨g, fl, p, -, hname, rfl, rfl, -⟩
      · exact absurd ⟨hv.badLength, by rw [hfind]; rfl⟩ hno
      · have hgf : g = f := Option.some.inj (hname.symm.trans hfind)
        subst hgf
        refine ⟨_, hrem, Named.live_eraseFile g, fun g' hg' => ⟨?_, ?_⟩⟩
        · rw [filename_eraseFile, if_neg hg']
        · rw [iNodes_eraseFile, if_neg hg']

/-- As long as names are kept apart, they resolve. -/
theorem resolves_of_apart (h : namingApart.Run tr s) : Resolves tr s :=
  (resolving_of_apart h).resolves

theorem validName_letter {b : Byte} (hb : b ≠ 0) : ValidName (letter b hb) :=
  show 1 ≤ 1 ∧ 1 ≤ 35 by decide

theorem openedAs_head (name : CString) (hfd : 0 ≤ fd) (tr : List (Call × Int)) :
    OpenedAs name fd ((.fopen name, fd) :: tr) :=
  ⟨tr, [], rfl, hfd, fun _ h => by cases h⟩

/-- A fresh disk and a file `A`. -/
theorem resolves_new_file :
    ∃ tr s, OpenedAs (letter 65 (by decide)) 0 tr ∧ Resolves tr s := by
  have h := formatted_fresh
  have hcreate := h.sfsFopen_letter (b := 65) (by decide)
  have hkeeps : KeepsApart formatted (.fopen (letter 65 (by decide))) := fun f _ _ =>
    ⟨fun _ g _ hl => hl (h.names g), fun g _ hl => absurd (h.names g) hl⟩
  have hstart : namingApart.Run [] formatted := .start ⟨_, _, rfl⟩
  have hrun : namingApart.Run [(.fopen (letter 65 (by decide)), 0)]
      (formatted.createFile 0 (letter 65 (by decide))) :=
    hstart.step ⟨⟨hkeeps, fun _ => h.isolated.indirectApart⟩,
      validName_letter (by decide), congrArg Except.ok hcreate⟩
  exact ⟨_, _, openedAs_head _ (Int.le_refl 0) [], resolves_of_apart hrun⟩

/-! ## A name of 35 bytes -/

/-- A name that fills its field. -/
def longName : CString where
  bytes := List.replicate 35 97
  no_nul b hb := by
    rw [(List.mem_replicate.mp hb).2]
    decide

theorem longName_valid : ValidName longName :=
  show 1 ≤ (List.replicate 35 (97 : Byte)).length ∧ (List.replicate 35 (97 : Byte)).length ≤ 35 by
    rw [List.length_replicate]; omega

/-- With another file behind it, the long name is not found any more. -/
theorem name_not_resolved : ¬ ∀ tr s, naming.Run tr s → Resolves tr s := by
  intro hall
  have h := formatted_fresh
  have hfirst : longName.bytes = 97 :: List.replicate 34 97 := rfl
  -- The long name goes into slot 0.
  have hopen := sfsFopen_creates (s := formatted) longName_valid.badLength
    (findName_eq_none hfirst fun g => by rw [h.names]; decide) h.findEmpty
  generalize ht : formatted.createFile 0 longName = t at hopen
  have hname_t : ∀ g, t.filename g 0 = if g = 0 then 97 else 0 := by
    intro g
    rw [← ht, filename_createFile]
    split
    · next hg =>
        have hlive := live_createFile (s := formatted) (f := 0) hfirst
        rw [filename_createFile, if_pos rfl] at hlive
        exact hlive
    · exact h.names g
  have hempty_t : findEmpty t = some 1 := by
    refine findEmpty_eq_some (fun hl => hl (hname_t 1)) ?_
    intro g hg
    have hg0 : g = 0 := Fin.ext (by omega)
    show t.filename g 0 ≠ 0
    rw [hname_t, if_pos hg0]
    decide
  -- The other one goes behind it.
  have hopen' := sfsFopen_creates (s := t) (badLength_letter (b := 66) (by decide))
    (findName_eq_none rfl fun g => by rw [hname_t]; split <;> decide) hempty_t
  generalize hu : t.createFile 1 (letter 66 (by decide)) = u at hopen'
  have hname_u : ∀ g, u.filename g 0 = if g = 1 then 66 else t.filename g 0 := by
    intro g
    rw [← hu, filename_createFile]
    split
    · next hg =>
        have hlive := live_createFile (s := t) (f := 1) (rfl : (letter 66 (by decide)).bytes = [66])
        rw [filename_createFile, if_pos rfl] at hlive
        exact hlive
    · rfl
  have hstart : naming.Run [] formatted := .start ⟨_, _, rfl⟩
  have hrun₁ : naming.Run [(.fopen longName, 0)] t :=
    hstart.step ⟨longName_valid, congrArg Except.ok hopen⟩
  have hrun : naming.Run [(.fopen (letter 66 (by decide)), 1), (.fopen longName, 0)] u :=
    hrun₁.step ⟨validName_letter (by decide), congrArg Except.ok hopen'⟩
  obtain ⟨f, hslot, hret, -⟩ := (hall _ _ hrun).opened longName 0 longName_valid
    ⟨[], [_], rfl, Int.le_refl 0, fun junk hmem => by simp at hmem⟩
  rcases hr : sfsFopen longName u with ⟨r, u'⟩
  rw [hr] at hret
  rcases sfsFopen_cases hr with
    ⟨hret', -⟩ | ⟨g, -, hfound, hret', -⟩ | ⟨g, -, -, hempty, hret', -⟩
  · omega
  · have hg : g = 0 := Fin.ext (by show g.val = 0; omega)
    -- Behind slot 0 stands the `B` of slot 1.
    have hmatch := (Fin.find?_eq_some_iff.mp hfound).1
    have hend := ((strcmpEq_slot longName_valid).mp hmatch).2
    have hbehind : u.byteBehind 0 = 66 := by
      rw [byteBehind_of_next (g := 1) rfl, hname_u, if_pos rfl]
    rw [hg] at hend
    exact absurd (hbehind.symm.trans hend) (by decide)
  · have hg : g = 0 := Fin.ext (by show g.val = 0; omega)
    refine not_live_of_findEmpty hempty ?_
    show u.filename g 0 ≠ 0
    rw [hname_u, hname_t, hg]
    decide

end OsConcepts.Sfs
