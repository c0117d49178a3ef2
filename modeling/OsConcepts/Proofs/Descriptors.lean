import OsConcepts.Proofs.OtherFiles

/-!
# Descriptors over a session

A session starts with `mksfs` and goes on with calls, `mksfs` again among them.
Whether a descriptor is open is a matter of the history (`OpenAfter`); what the
calls go by is one cell of a table. The two agree in every session, as long as
no file of negative size is opened, which only a damaged disk can offer.

`sfs_fseek` is the one call that uses its descriptor as an index before it has
looked at it.
-/

namespace OsConcepts.Sfs

open OsConcepts

variable {s s' : Sfs} {f : Fin 300} {junk buf data : Mem} {fd count ret : Int} {c : Call}

/-! ## Sessions -/

/-- What happens in a session: a call, with the slot it designates and its
result, or `mksfs`. -/
inductive Event where
  | mksfs (fresh : Int)
  | call (c : Call) (slot : Option (Fin 300)) (ret : Int)

/-- The program from its first `mksfs` on. -/
def sessions : System Sfs Event where
  init s := ∃ fresh junk s₀, s = mksfs fresh junk s₀
  step s e s' :=
    match e with
    | .mksfs fresh => ∃ junk, s' = mksfs fresh junk s
    | .call c slot ret => slot = c.slot s ∧ c.exec s = .ok (ret, s')

/-- The event gives out the descriptor. -/
def Opens (fd : Int) : Event → Prop
  | .call (.fopen _) _ ret => 0 ≤ fd ∧ ret = fd
  | _ => False

/-- The event ends the descriptor: a close, the removal of its file, or
`mksfs`. -/
def Closes (fd : Int) : Event → Prop
  | .mksfs _ => True
  | .call (.fclose fd') _ _ => fd' = fd
  | .call (.remove _ _) slot ret => ret = 0 ∧ ∃ f, slot = some f ∧ fd = (f : Nat)
  | _ => False

/-- Given out, and not ended since. The latest event comes first. -/
def OpenAfter (fd : Int) : List Event → Prop
  | [] => False
  | e :: tr => Opens fd e ∨ ¬ Closes fd e ∧ OpenAfter fd tr

/-- What is asked of the next call: on a descriptor that is not open it returns
-1 and changes nothing, an open one can be closed, and the tables are not left. -/
def Behaves (tr : List Event) (s : Sfs) (c : Call) : Prop :=
  match c with
  | .fclose fd =>
      (¬ OpenAfter fd tr → c.exec s = .ok (-1, s)) ∧ (OpenAfter fd tr → ∃ s', c.exec s = .ok (0, s'))
  | .fseek fd _ | .fread _ fd _ | .fwrite _ fd _ _ =>
      (¬ OpenAfter fd tr → c.exec s = .ok (-1, s)) ∧ c.exec s ≠ .error .tableIndex
  | _ => True

/-- The condition on a call: `sfs_fseek` gets a negative location or the number
of a slot, and `sfs_fopen` finds no file of negative size. -/
def Orderly (s : Sfs) : Call → Prop
  | .fseek fd location => location < 0 ∨ (slot? fd).isSome
  | .fopen fname => ∀ f, badLength (wrap32 fname.length) = false → findName fname s = some f →
      0 ≤ (s.iNodes f).size
  | _ => True

/-- Sessions of orderly calls. -/
def orderly : System Sfs Event := sessions.guard fun s e =>
  match e with
  | .mksfs _ => True
  | .call c _ _ => Orderly s c

/-! ## History and table -/

/-- The descriptor's cell holds a position. -/
def IsOpen (s : Sfs) (fd : Int) : Prop := ∃ f, slot? fd = some f ∧ 0 ≤ s.openFDTCache f

/-- History and table agree, and open files have a size. -/
structure Agrees (tr : List Event) (s : Sfs) : Prop where
  iff : ∀ fd, OpenAfter fd tr ↔ IsOpen s fd
  size : ∀ f, 0 ≤ s.openFDTCache f → 0 ≤ (s.iNodes f).size

theorem isOpen_natCast : IsOpen s (f : Nat) ↔ 0 ≤ s.openFDTCache f := by
  constructor
  · rintro ⟨g, hg, hopen⟩
    obtain rfl : f = g := Option.some.inj ((slot?_natCast f).symm.trans hg)
    exact hopen
  · exact fun hopen => ⟨f, slot?_natCast f, hopen⟩

theorem SameOpen.isOpen (h : SameOpen s s') (fd : Int) : IsOpen s' fd ↔ IsOpen s fd :=
  exists_congr fun f => and_congr_right fun _ => h f

/-- A step that gives out and ends no descriptor keeps the agreement. -/
theorem Agrees.quiet {tr : List Event} {e : Event} (h : Agrees tr s) (hs : SameOpen s s')
    (hopens : ∀ fd, ¬ Opens fd e) (hcloses : ∀ fd, Closes fd e → ¬ IsOpen s fd)
    (hsize : ∀ f, 0 ≤ s.openFDTCache f → 0 ≤ (s'.iNodes f).size) : Agrees (e :: tr) s' where
  iff fd := by
    rw [hs.isOpen, OpenAfter, h.iff]
    have := hopens fd
    have := hcloses fd
    tauto
  size f hopen := hsize f ((hs f).mp hopen)

/-- Where one cell has changed. -/
theorem isOpen_update (hother : ∀ g, g ≠ f → s'.openFDTCache g = s.openFDTCache g) (fd : Int) :
    IsOpen s' fd ↔
      fd = (f : Nat) ∧ 0 ≤ s'.openFDTCache f ∨ fd ≠ (f : Nat) ∧ IsOpen s fd := by
  by_cases hfd : fd = (f : Nat)
  · subst hfd
    rw [isOpen_natCast]
    tauto
  · have hcell : ∀ g, slot? fd = some g → s'.openFDTCache g = s.openFDTCache g := fun g hg =>
      hother g fun hgf => hfd (slot?_eq_some.mp (hgf ▸ hg))
    have hsame : IsOpen s' fd ↔ IsOpen s fd :=
      exists_congr fun g => and_congr_right fun hg => by rw [hcell g hg]
    tauto

/-- A step that gives out a slot's descriptor. -/
theorem Agrees.opens {tr : List Event} {e : Event} (h : Agrees tr s)
    (hopens : ∀ fd, Opens fd e ↔ fd = (f : Nat)) (hcloses : ∀ fd, ¬ Closes fd e)
    (hother : ∀ g, g ≠ f → s'.openFDTCache g = s.openFDTCache g) (hopen : 0 ≤ s'.openFDTCache f)
    (hsize : 0 ≤ (s'.iNodes f).size) (hinode : ∀ g, g ≠ f → s'.iNodes g = s.iNodes g) :
    Agrees (e :: tr) s' where
  iff fd := by
    rw [isOpen_update hother, OpenAfter, h.iff, hopens]
    have := hcloses fd
    tauto
  size g hg := by
    by_cases hgf : g = f
    · rw [hgf]
      exact hsize
    · rw [hother g hgf] at hg
      rw [hinode g hgf]
      exact h.size g hg

/-- A step that ends it. -/
theorem Agrees.closes {tr : List Event} {e : Event} (h : Agrees tr s)
    (hopens : ∀ fd, ¬ Opens fd e) (hcloses : ∀ fd, Closes fd e ↔ fd = (f : Nat))
    (hother : ∀ g, g ≠ f → s'.openFDTCache g = s.openFDTCache g) (hclosed : s'.openFDTCache f = -1)
    (hinode : ∀ g, g ≠ f → s'.iNodes g = s.iNodes g) : Agrees (e :: tr) s' where
  iff fd := by
    have hneg : ¬ 0 ≤ s'.openFDTCache f := by omega
    rw [isOpen_update hother, OpenAfter, h.iff, hcloses]
    have := hopens fd
    tauto
  size g hg := by
    have hgf : g ≠ f := by
      rintro rfl
      omega
    rw [hother g hgf] at hg
    rw [hinode g hgf]
    exact h.size g hg

theorem mksfs_agrees (fresh : Int) (junk : Mem) (s : Sfs) {tr : List Event}
    (h : ∀ fd, ¬ OpenAfter fd tr) : Agrees tr (mksfs fresh junk s) := by
  have hclosed : ∀ f, (mksfs fresh junk s).openFDTCache f = -1 := fun _ => rfl
  refine ⟨fun fd => iff_of_false (h fd) fun ⟨f, _, hopen⟩ => ?_, fun f hopen => ?_⟩
  · rw [hclosed] at hopen
    omega
  · rw [hclosed] at hopen
    omega

/-- Every call keeps the agreement. -/
theorem exec_agrees {tr : List Event} (h : Agrees tr s) (hc : Orderly s c)
    (hexec : c.exec s = .ok (ret, s')) : Agrees (.call c (c.slot s) ret :: tr) s' := by
  cases exec_effect hexec with
  | @opened fname f hlen hname =>
      have hmove := (Rereads.move f s (s.iNodes f).size).touches
      have hsize := hc f hlen hname
      refine h.opens (fun fd => ?_) (fun _ => id) hmove.descriptors (by simpa using hsize)
        (by simpa using hsize) hmove.iNodes
      show 0 ≤ fd ∧ ((f : Nat) : Int) = fd ↔ _
      omega
  | @created fname f hlen hname hempty =>
      refine h.opens (fun fd => ?_) (fun _ => id)
        (fun g hg => (createFile_spares s fname hg).descriptor)
        (Int.le_of_eq (createFile_position s f fname).symm) (by rw [createFile_size])
        fun g hg => (createFile_spares s fname hg).iNodes
      show 0 ≤ fd ∧ ((f : Nat) : Int) = fd ↔ _
      omega
  | notOpened =>
      refine h.quiet (.refl s) (fun fd hopens => ?_) (fun _ hcloses => absurd hcloses id) h.size
      have hopens : 0 ≤ fd ∧ -1 = fd := hopens
      omega
  | @closed fd f hf hopen =>
      have hmove := (Rereads.move f s (-1)).touches
      refine h.closes (fun _ => id) (fun fd' => ?_) hmove.descriptors (by simp) hmove.iNodes
      show fd = fd' ↔ _
      rw [← slot?_eq_some.mp hf]
      exact eq_comm
  | @notClosed fd hclosed =>
      refine h.quiet (.refl s) (fun _ => id) (fun fd' hcloses => ?_) h.size
      obtain rfl : fd = fd' := hcloses
      rintro ⟨f, hf, hopen⟩
      have := hclosed f hf
      omega
  | sought hmove hsame | read hmove hsame =>
      refine h.quiet hsame (fun _ => id) (fun _ hcloses => absurd hcloses id) ?_
      intro f hopen
      rcases hmove with rfl | ⟨g, -, -, hre⟩
      · exact h.size f hopen
      · rw [hre.iNodes]
        exact h.size f hopen
  | @written junk buf fd count ret s' hwrite =>
      obtain ⟨hsame, hsize⟩ := sfsFwrite_sameOpen (fun f ha => h.size f ha.isOpen) hwrite
      refine h.quiet hsame (fun _ => id) (fun _ hcloses => absurd hcloses id) ?_
      intro f hopen
      rcases sfsFwrite_touches hwrite with ⟨-, rfl, -⟩ | ⟨g, ha, htouch⟩
      · exact h.size f hopen
      · by_cases hfg : f = g
        · exact hfg ▸ hsize g ha
        · rw [htouch.iNodes f hfg]
          exact h.size f hopen
  | listed hn =>
      refine h.quiet (fun _ => by simp [saveLocation]) (fun _ => id)
        (fun _ hcloses => absurd hcloses id) ?_
      intro f hopen
      rw [iNodes_saveLocation]
      exact h.size f hopen
  | notListed | sized =>
      exact h.quiet (.refl s) (fun _ => id) (fun _ hcloses => absurd hcloses id) h.size
  | @removed junk fname f fl p hlen hname =>
      have hslot : (Call.remove junk fname).slot s = some f := by simp [Call.slot, hlen, hname]
      refine h.closes (fun _ => id) (fun fd => ?_)
        (fun g hg => (eraseFile_spares s fl p hg).descriptor)
        (by rw [openFDTCache_eraseFile, if_pos rfl])
        fun g hg => (eraseFile_spares s fl p hg).iNodes
      rw [hslot]
      show (0 : Int) = 0 ∧ (∃ g, some f = some g ∧ fd = (g : Nat)) ↔ _
      simp
  | notRemoved =>
      refine h.quiet (.refl s) (fun _ => id) (fun fd hcloses => ?_) h.size
      have hret : (-1 : Int) = 0 := hcloses.1
      omega

/-- In every orderly session history and table agree. -/
theorem orderly_agrees {tr : List Event} (h : orderly.Run tr s) : Agrees tr s := by
  refine System.Run.induction (S := orderly) (I := Agrees) ?_ ?_ h
  · rintro s ⟨fresh, junk, s₀, rfl⟩
    exact mksfs_agrees fresh junk s₀ fun _ => id
  · rintro tr s e s' hi ⟨hok, hstep⟩
    cases e with
    | mksfs fresh =>
        obtain ⟨junk, rfl⟩ := hstep
        refine mksfs_agrees fresh junk s ?_
        intro fd hopen
        rcases hopen with hopens | ⟨hno, -⟩
        · exact hopens
        · exact hno trivial
    | call c slot ret =>
        obtain ⟨rfl, hexec⟩ := hstep
        exact exec_agrees hi hok hexec

/-! ## The next call -/

theorem sfsFwrite_closed (hclosed : ¬ IsOpen s fd) :
    sfsFwrite junk fd buf count s = .ok (-1, s) := by
  unfold sfsFwrite
  split
  · rfl
  · split
    · rfl
    · next f hf =>
        have hneg : ¬ 0 ≤ s.openFDTCache f := fun hopen => hclosed ⟨f, hf, hopen⟩
        rw [if_pos (by omega)]

theorem sfsFread_not_open (hclosed : ¬ IsOpen s fd) :
    sfsFread junk fd count s = .ok (-1, [], s) := by
  cases hf : slot? fd with
  | none =>
      unfold sfsFread
      rw [hf]
      split <;> rfl
  | some f =>
      have hneg : ¬ 0 ≤ s.openFDTCache f := fun hopen => hclosed ⟨f, hf, hopen⟩
      exact sfsFread_closed hf (by omega)

/-- `sfs_fseek` comes back exactly when it can look the file up. -/
theorem sfsFseek_ok_iff {loc : Int} :
    (∃ r, sfsFseek fd loc s = .ok r) ↔ loc < 0 ∨ (slot? fd).isSome := by
  unfold sfsFseek
  split
  · next hloc => exact iff_of_true ⟨_, rfl⟩ (Or.inl hloc)
  · next hloc =>
      cases hf : slot? fd with
      | none => exact iff_of_false (fun ⟨_, hr⟩ => by cases hr) (by simp [hloc])
      | some f =>
          refine iff_of_true ?_ (Or.inr rfl)
          dsimp only
          split
          · exact ⟨_, rfl⟩
          · split <;> exact ⟨_, rfl⟩

theorem sfsFread_no_tableIndex : sfsFread junk fd count s ≠ .error .tableIndex := by
  unfold sfsFread
  split
  · exact fun h => by cases h
  · split
    · exact fun h => by cases h
    · next f _ =>
        dsimp only
        split
        · exact fun h => by cases h
        · split
          · exact fun h => by cases h
          · split
            · exact fun h => by cases h
            · generalize (if (s.iNodes f).size < wrap32 (s.openFDTCache f + count) then
                wrap32 ((s.iNodes f).size - s.openFDTCache f) else count) = bytesToRead
              split <;> exact fun h => by cases h

/-- A sequence of steps stays within the tables when each does. -/
theorem bind_no_tableIndex {α β : Type} {x : Except Fault α} {k : α → Except Fault β}
    (hx : x ≠ .error .tableIndex) (hk : ∀ a, x = .ok a → k a ≠ .error .tableIndex) :
    (x >>= k) ≠ .error .tableIndex := by
  cases x with
  | error e => exact fun h => hx (congrArg Except.error (Except.error.inj h))
  | ok a => exact hk a rfl

theorem loadFileData_no_tableIndex {capacity : Int} :
    loadFileData junk f buf count capacity s ≠ .error .tableIndex := by
  have hseek : ∀ loc t, sfsFseek (f : Nat) loc t ≠ .error .tableIndex := by
    intro loc t h
    obtain ⟨r, hr⟩ : ∃ r, sfsFseek (f : Nat) loc t = .ok r :=
      sfsFseek_ok_iff.mpr (Or.inr (by rw [slot?_natCast]; rfl))
    rw [hr] at h
    cases h
  unfold loadFileData
  refine bind_no_tableIndex (hseek _ _) fun r₁ _ =>
    bind_no_tableIndex sfsFread_no_tableIndex ?_
  intro r₂ _
  dsimp only
  split
  · exact fun h => by cases h
  · refine bind_no_tableIndex (hseek _ _) ?_
    intro r₃ _
    split <;> exact fun h => by cases h

theorem writeLoop_no_tableIndex {capacity : Int} : ∀ {n k : Nat} {l : WriteLocals} {s : Sfs},
    writeLoop junk f data capacity n k l s ≠ .error .tableIndex := by
  intro n
  induction n with
  | zero => exact fun h => by cases h
  | succ n ih =>
      intro k l s
      rw [writeLoop]
      generalize chooseBlock junk f k l s = x
      obtain ⟨o, l', s₁⟩ := x
      cases o with
      | none => exact fun h => by cases h
      | some block =>
          dsimp only
          split
          · exact fun h => by cases h
          · split
            · exact fun h => by cases h
            · exact ih

theorem sfsFwrite_no_tableIndex : sfsFwrite junk fd buf count s ≠ .error .tableIndex := by
  unfold sfsFwrite
  split
  · exact fun h => by cases h
  · split
    · exact fun h => by cases h
    · split
      · exact fun h => by cases h
      · split
        · exact fun h => by cases h
        · refine bind_no_tableIndex loadFileData_no_tableIndex fun r₁ _ =>
            bind_no_tableIndex writeLoop_no_tableIndex fun ⟨done, s₁⟩ _ => ?_
          cases done <;> exact fun h => by cases h

/-- In every orderly session every next orderly call behaves. -/
theorem behaves_of_orderly {tr : List Event} (h : orderly.Run tr s) (hc : Orderly s c) :
    Behaves tr s c := by
  have hagree := (orderly_agrees h).iff
  cases c with
  | fclose fd =>
      refine ⟨fun hno => ?_, fun hopen => ?_⟩
      · rw [hagree] at hno
        show Except.ok (sfsFclose fd s) = _
        unfold sfsFclose
        split
        · rfl
        · next f hf =>
            have hneg : ¬ 0 ≤ s.openFDTCache f := fun hopen => hno ⟨f, hf, hopen⟩
            rw [if_pos (by omega)]
      · obtain ⟨f, hf, hpos⟩ := (hagree fd).mp hopen
        refine ⟨s.setReadWritePointer f (-1), ?_⟩
        show Except.ok (sfsFclose fd s) = _
        unfold sfsFclose
        rw [hf]
        dsimp only
        rw [if_neg (by omega)]
  | fseek fd loc =>
      obtain ⟨⟨ret, s'⟩, hr⟩ := sfsFseek_ok_iff.mpr hc
      have hr' : (Call.fseek fd loc).exec s = .ok (ret, s') := hr
      refine ⟨fun hno => ?_, fun herr => by rw [hr'] at herr; cases herr⟩
      rw [hagree] at hno
      rcases hc with hloc | hslot
      · show sfsFseek fd loc s = _
        unfold sfsFseek
        rw [if_pos hloc]
      · obtain ⟨f, hf⟩ := Option.isSome_iff_exists.mp hslot
        have hneg : ¬ 0 ≤ s.openFDTCache f := fun hopen => hno ⟨f, hf, hopen⟩
        obtain ⟨rfl, rfl⟩ := sfsFseek_closed hf (by omega) hr
        exact hr'
  | fread junk fd count =>
      refine ⟨fun hno => ?_, ?_⟩
      · rw [hagree] at hno
        simp only [Call.exec, sfsFread_not_open hno]
        rfl
      · exact bind_no_tableIndex sfsFread_no_tableIndex fun _ _ h => by cases h
  | fwrite junk fd buf count =>
      refine ⟨fun hno => ?_, sfsFwrite_no_tableIndex⟩
      rw [hagree] at hno
      exact sfsFwrite_closed hno
  | fopen | getnextfilename | getfilesize | remove => trivial

/-- The descriptor of a new file can be closed. -/
theorem close_behaves_new_file :
    ∃ s', (Call.fclose 0).exec (formatted.createFile 0 (letter 65 (by decide))) = .ok (0, s') := by
  have h := formatted_fresh
  have hname : findName (letter 65 (by decide)) formatted = none :=
    findName_eq_none rfl fun g => by rw [h.names]; decide
  have hopen := sfsFopen_creates (badLength_letter (by decide : (65 : Byte) ≠ 0)) hname h.findEmpty
  have hslot : (Call.fopen (letter 65 (by decide))).slot formatted = some 0 := by
    simp only [Call.slot, badLength_letter, hname, h.findEmpty]
    rfl
  have hstart : orderly.Run [] formatted := .start ⟨_, _, _, rfl⟩
  have hstep : orderly.step formatted (.call (.fopen (letter 65 (by decide))) (some 0) 0)
      (formatted.createFile 0 (letter 65 (by decide))) :=
    ⟨fun f _ hf => by rw [hname] at hf; exact absurd hf (by simp), hslot.symm,
      congrArg Except.ok hopen⟩
  exact (behaves_of_orderly (c := .fclose 0) (hstart.step hstep) trivial).2
    (Or.inl ⟨Int.le_refl 0, rfl⟩)

/-- Right after `mksfs`, a seek on descriptor 300, which nobody was given,
leaves the i-node table. -/
theorem fseek_leaves_table :
    sessions.Run [] formatted ∧ ¬ OpenAfter 300 [] ∧
      (Call.fseek 300 0).exec formatted = .error .tableIndex ∧
      ¬ Behaves [] formatted (.fseek 300 0) := by
  have hexec : (Call.fseek 300 0).exec formatted = .error .tableIndex := by
    have hslot : slot? 300 = none := slot?_eq_none.mpr (Or.inr (Int.le_refl 300))
    simp only [Call.exec, sfsFseek, hslot]
    rfl
  exact ⟨.start ⟨_, _, _, rfl⟩, id, hexec, fun h => h.2 hexec⟩

end OsConcepts.Sfs
