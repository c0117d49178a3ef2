import OsConcepts.Proofs.FailedWrite
import OsConcepts.Proofs.Touches

/-!
# What a write depends on

`sfs_fwrite` copies `count` bytes from the caller's memory, and that is all it
does with them, but for its check on `strlen(buf)`, which runs on to the first
NUL wherever that is. Two buffers with the same first `count` bytes are written
alike when the check comes out alike for both (`sfsFwrite_congr`). When it does
not, one write is refused; the other must then fail without a trace for nobody
to tell them apart, and whether it does is known from the state
(`FailsUnseen`).
-/

namespace OsConcepts.Sfs

open OsConcepts

variable {s s' s'' : Sfs} {f g : Fin 300} {junk buf buf₁ buf₂ data : Mem} {fd count ret : Int}

/-- What `sfs_fwrite` does not accept: a string longer than the disk. -/
def TooLong (buf : Mem) : Prop := 2048000 < strnlen buf 2048001 0

instance (buf : Mem) : Decidable (TooLong buf) := inferInstanceAs (Decidable (_ < _))

/-- The first `count` bytes are the same. -/
def Agree (count : Int) (buf₁ buf₂ : Mem) : Prop := ∀ i : Nat, (i : Int) < count → buf₁ i = buf₂ i

/-! ## The same outcome -/

/-- What a user of the file system sees is the same in both states: the names,
and of every slot the size, the position and, for a file, its blocks and its
bytes; and the free list. -/
structure SameView (s s' : Sfs) : Prop where
  names : ∀ g, s'.filename g = s.filename g
  sizes : ∀ g, (s'.iNodes g).size = (s.iNodes g).size
  positions : ∀ g, s'.openFDTCache g = s.openFDTCache g
  freeList : s'.freeBlockListCache = s.freeBlockListCache
  pointers : ∀ g, s.Live g → s'.pointer g = s.pointer g
  bytes : ∀ g, s.Live g → ∀ junk, readFile junk g s' = readFile junk g s

theorem SameView.refl (s : Sfs) : SameView s s :=
  ⟨fun _ => rfl, fun _ => rfl, fun _ => rfl, rfl, fun _ _ => rfl, fun _ _ _ => rfl⟩

theorem SameView.symm (h : SameView s s') : SameView s' s := by
  have hlive : ∀ g, s'.Live g → s.Live g := by
    intro g hg
    unfold Live at hg ⊢
    rwa [← h.names]
  exact
    { names := fun g => (h.names g).symm
      sizes := fun g => (h.sizes g).symm
      positions := fun g => (h.positions g).symm
      freeList := h.freeList.symm
      pointers := fun g hg => (h.pointers g (hlive g hg)).symm
      bytes := fun g hg junk => (h.bytes g (hlive g hg) junk).symm }

/-- Both calls return the same value and leave the same view, or neither comes
back. -/
def SameOutcome : Except Fault (Int × Sfs) → Except Fault (Int × Sfs) → Prop
  | .ok (ret, s), .ok (ret', s') => ret' = ret ∧ SameView s s'
  | .error e, .error e' => e' = e
  | _, _ => False

theorem SameOutcome.refl (x : Except Fault (Int × Sfs)) : SameOutcome x x := by
  cases x with
  | error e => exact rfl
  | ok x => exact ⟨rfl, .refl x.2⟩

theorem SameOutcome.symm {x y : Except Fault (Int × Sfs)} (h : SameOutcome x y) :
    SameOutcome y x := by
  cases x with
  | error e =>
      cases y with
      | error e' => exact Eq.symm h
      | ok y => exact h
  | ok x =>
      cases y with
      | error e' => exact h
      | ok y => exact ⟨h.1.symm, h.2.symm⟩

/-! ## Where the checks agree -/

theorem memcpy_congr {dst src src' : Mem} {off n : Nat} (h : ∀ i < n, src i = src' i) :
    memcpy dst off src n = memcpy dst off src' n := by
  funext k
  by_cases hk : off ≤ k ∧ k < off + n
  · rw [memcpy_in hk.1 hk.2, memcpy_in hk.1 hk.2]
    exact h _ (by omega)
  · rw [memcpy_out (by omega), memcpy_out (by omega)]

theorem loadFileData_congr {capacity : Int} (h : Agree count buf₁ buf₂) :
    loadFileData junk f buf₁ count capacity s = loadFileData junk f buf₂ count capacity s := by
  have hcopy : ∀ (dst : Mem) (off : Nat),
      memcpy dst off buf₁ count.toNat = memcpy dst off buf₂ count.toNat :=
    fun dst off => memcpy_congr fun i hi => h i (by omega)
  unfold loadFileData
  simp only [hcopy]

/-- Past the check, only the bytes to be written matter. -/
theorem sfsFwrite_congr (h : Agree count buf₁ buf₂) (hlen : TooLong buf₁ ↔ TooLong buf₂) :
    sfsFwrite junk fd buf₁ count s = sfsFwrite junk fd buf₂ count s := by
  unfold TooLong at hlen
  unfold sfsFwrite
  split
  · rfl
  · cases slot? fd with
    | none => rfl
    | some f =>
        dsimp only
        by_cases hlong : 2048000 < strnlen buf₁ 2048001 0
        · rw [if_pos hlong, if_pos (hlen.mp hlong)]
        · rw [if_neg hlong, if_neg fun h => hlong (hlen.mpr h), loadFileData_congr h]

/-! ## Where they do not -/

theorem sfsFwrite_refused (hopen : 0 ≤ s.openFDTCache f) (hcount : 0 ≤ count)
    (hlong : TooLong buf) :
    sfsFwrite junk (f : Nat) buf count s = .ok (-1, s) := by
  unfold TooLong at hlong
  unfold sfsFwrite
  rw [if_neg (by omega), slot?_natCast]
  dsimp only
  rw [if_neg (by omega), if_pos hlong]

/-- A file given blocks without any being taken from the free list has been
given none. -/
theorem Extends.pointer_eq (h : Extends f s s') (hs' : Owned s')
    (hfree : s'.freeBlockListCache = s.freeBlockListCache) : s'.pointer f = s.pointer f := by
  refine funext fun r => ?_
  by_cases hold : s.pointer f r = -1
  · by_contra hne
    obtain ⟨b, hb, hheld⟩ := hs'.nat_of_pointer (hold ▸ hne : s'.pointer f r ≠ -1)
    rcases h.acquires.fresh (i := (f, r)) hb with hheld' | hnew
    · have hb' : s.pointer f r = (b : Nat) := hheld'
      omega
    · refine hnew ?_
      have hbusy : s'.ledger.busy b := hs'.sound.accounted (i := (f, r)) hb
      show s.freeBlockListCache b = _
      rw [← hfree]
      exact hbusy
  · exact h.keeps r hold

/-- A failed write that has taken no blocks has given the file none. -/
theorem failed_write_pointer (hs : Owned s) (ha : Accepts s fd buf count f)
    (h : sfsFwrite junk fd buf count s = .ok (-1, s'))
    (hfree : s'.freeBlockListCache = s.freeBlockListCache) : s'.pointer f = s.pointer f := by
  have hcount := ha.count_nonneg
  rcases sfsFwrite_cases hs h with ⟨-, -, hrefused⟩ | ⟨g, data, s₀, ha', hload, hout⟩
  · exact absurd ha (hrefused f)
  obtain rfl : g = f := ha.unique ha'
  have hsame := (loadFileData_rereads hload).sameBlocks
  rw [← hsame.freeList] at hfree
  rw [← hsame.pointer]
  generalize hret : (-1 : Int) = ret at hout
  cases hout with
  | done => omega
  | @stopped m s₁ _ hm hP hstop =>
      cases hstop with
      | past p hk =>
          rw [((Rereads.seek g s₁ p).sameBlocks).pointer]
          exact hP.ext.pointer_eq hP.owned hfree
      | full hk hlack hone hnone howned hext =>
          exact (hP.ext.trans hext).pointer_eq howned hfree
      | stray hk hind hzero =>
          have hp : s₁.pointer g = s₀.pointer g := hP.ext.pointer_eq hP.owned hfree
          rw [← hp]
          refine funext fun r => ?_
          have hind' : (s₁.iNodes g).indirectPointer = -1 := hind
          cases r with
          | direct i => simp only [pointer, iNodes_strayWrite]
          | indirect => simp only [pointer, iNodes_strayWrite]
          | entry j => simp only [pointer, iNodes_strayWrite, hind', if_true]

/-- The write fails, and nothing comes of it for its own file or any other. -/
structure FailsUnseen (s : Sfs) (f : Fin 300) (count : Int) : Prop where
  fails : Fails s f count
  comesBack : ComesBack s f count
  harmless : Harmless s f count
  missesOthers : RunsDry s f count → ¬ HitsOther s f

/-- With the descriptor at the end, opening the file changes nothing. -/
theorem readFile_of_end (h : s.openFDTCache f = (s.iNodes f).size) :
    readFile junk f s = readAll junk f s := by
  rw [readFile, ← h, setReadWritePointer_eq_self]

/-- What can be told from outside, told from the state. -/
theorem sameView_unaffected (hs : WellFormed s) (h : SameView s s') : Unaffected f s s' := by
  intro g _ hl
  refine ⟨h.sizes g, h.pointers g hl, h.positions g, ?_⟩
  intro junk junk'
  rw [h.bytes g hl junk', readFile_eq (hs.range g) (hs.backed g hl),
    readFile_eq (hs.range g) (hs.backed g hl)]

/-- A write that is not refused leaves everything as a refused one does exactly
when it fails unseen. -/
theorem sameOutcome_refused_iff (hs : WellFormed s) (hl : s.Live f) (hopen : 0 ≤ s.openFDTCache f)
    (hint : Int32Range (s.openFDTCache f)) (hcount : 0 ≤ count) (hcount' : count < 2147483648)
    (hshort : ¬ TooLong buf) :
    SameOutcome (.ok (-1, s)) (sfsFwrite junk (f : Nat) buf count s) ↔ FailsUnseen s f count := by
  have ha : Accepts s (f : Nat) buf count f :=
    ⟨hcount, slot?_natCast f, hopen, by unfold TooLong at hshort; omega⟩
  constructor
  · intro h
    cases hrun : sfsFwrite junk (f : Nat) buf count s with
    | error e =>
        rw [hrun] at h
        exact h.elim
    | ok r =>
        obtain ⟨ret, s'⟩ := r
        rw [hrun] at h
        obtain ⟨rfl, hview⟩ := h
        obtain ⟨hfails, hpos, -, htaken, hread⟩ := failed_write hs.toOwned (hs.backed f hl) ha hrun
        have hend : s.openFDTCache f = (s.iNodes f).size := (hview.positions f).symm.trans hpos
        have hend' : s'.openFDTCache f = (s'.iNodes f).size := by rw [hpos, hview.sizes]
        have hbytes : ∀ junk, readAll junk f s' = readAll junk f s := by
          intro junk
          rw [← readFile_of_end hend, ← readFile_of_end hend']
          exact hview.bytes f hl junk
        exact
          { fails := hfails
            comesBack := comesBack_of_ok hs.toOwned (hs.backed f hl) ha hint ⟨by omega, hcount'⟩ hrun
            harmless := ⟨htaken.mp hview.freeList, hend, (hread hend).mp hbytes⟩
            missesOthers := fun hdry hhit => sfsFwrite_affects hs.intact hrun ⟨f, ha, hdry, hhit⟩
              (sameView_unaffected hs hview) }
  · intro h
    obtain ⟨s', hrun⟩ : ∃ s', sfsFwrite junk (f : Nat) buf count s = .ok (-1, s') :=
      sfsFwrite_fails junk hs.toOwned (hs.backed f hl) ha hint h.comesBack h.fails
    obtain ⟨-, hpos, hsize, htaken, hread⟩ := failed_write hs.toOwned (hs.backed f hl) ha hrun
    have hfree := htaken.mpr h.harmless.takesNothing
    have hend := h.harmless.atEnd
    have hothers : Unaffected f s s' := by
      refine sfsFwrite_unaffected hs.intact hrun fun ⟨g, ha', hdry, hhit⟩ => ?_
      obtain rfl : g = f := ha.unique ha'
      exact h.missesOthers hdry hhit
    have htouch : Touches f s s' := by
      rcases sfsFwrite_touches hrun with ⟨-, -, hno⟩ | ⟨g, ha', htouch⟩
      · exact absurd ha (hno f)
      · obtain rfl : g = f := ha.unique ha'
        exact htouch
    rw [hrun]
    refine ⟨rfl, ?_⟩
    exact
      { names := fun g => by unfold filename; rw [htouch.directory]
        sizes := by
          intro g
          by_cases hg : g = f
          · rw [hg, hsize]
          · rw [htouch.iNodes g hg]
        positions := by
          intro g
          by_cases hg : g = f
          · rw [hg, hpos, hend]
          · exact htouch.descriptors g hg
        freeList := hfree
        pointers := by
          intro g hlg
          by_cases hg : g = f
          · subst hg
            exact failed_write_pointer hs.toOwned ha hrun hfree
          · exact (hothers g hg hlg).2.1
        bytes := by
          intro g hlg junk
          by_cases hg : g = f
          · subst hg
            rw [readFile_of_end hend, readFile_of_end (hpos.trans hsize.symm)]
            exact (hread hend).mpr h.harmless.misses junk
          · exact (hothers g hg hlg).2.2.2 junk junk }

/-- In a well-formed state two buffers with the same bytes to write have the
same outcome exactly when the check comes out alike, or the one write that is
made fails unseen. -/
theorem sameOutcome_iff (hs : WellFormed s) (hl : s.Live f) (hopen : 0 ≤ s.openFDTCache f)
    (hint : Int32Range (s.openFDTCache f)) (hcount : 0 ≤ count) (hcount' : count < 2147483648)
    (hagree : Agree count buf₁ buf₂) (junk : Mem) :
    SameOutcome (sfsFwrite junk (f : Nat) buf₁ count s) (sfsFwrite junk (f : Nat) buf₂ count s) ↔
      (TooLong buf₁ ↔ TooLong buf₂) ∨ FailsUnseen s f count := by
  by_cases h₁ : TooLong buf₁
  · by_cases h₂ : TooLong buf₂
    · rw [sfsFwrite_congr hagree (iff_of_true h₁ h₂)]
      exact iff_of_true (.refl _) (Or.inl (iff_of_true h₁ h₂))
    · rw [sfsFwrite_refused hopen hcount h₁,
        sameOutcome_refused_iff hs hl hopen hint hcount hcount' h₂]
      exact ⟨Or.inr, fun h => h.resolve_left fun h => h₂ (h.mp h₁)⟩
  · by_cases h₂ : TooLong buf₂
    · rw [sfsFwrite_refused hopen hcount h₂]
      refine Iff.trans ⟨SameOutcome.symm, SameOutcome.symm⟩
        ((sameOutcome_refused_iff hs hl hopen hint hcount hcount' h₁).trans ?_)
      exact ⟨Or.inr, fun h => h.resolve_left fun h => h₁ (h.mpr h₂)⟩
    · rw [sfsFwrite_congr hagree (iff_of_false h₁ h₂)]
      exact iff_of_true (.refl _) (Or.inl (iff_of_false h₁ h₂))

/-! ## The condition -/

/-- A new file on a fresh disk. -/
def newFile : Sfs := formatted.createFile 0 (letter 65 (by decide))

theorem newFile_wellFormed : WellFormed newFile := formatted_fresh.createFile_wellFormed _

theorem newFile_live : newFile.Live 0 := live_createFile_letter _ _ _

theorem newFile_position : newFile.openFDTCache 0 = 0 := createFile_position _ _ _

/-- There are blocks for it to take, so no write to it fails unseen. -/
theorem newFile_not_failsUnseen (count : Int) : ¬ FailsUnseen newFile 0 count := by
  intro h
  have hmissing : ∀ n, newFile.missing 0 0 n = n + if 12 < n then 1 else 0 := by
    intro n
    rw [newFile, missing_of_no_blocks (formatted_fresh.createFile_pointer _ 0)]
    simp
  have hfree : newFile.freeBelow 1024 = 1005 := formatted_fresh.createFile_freeBelow _
  have hnone := h.harmless.takesNothing
  have hfails := h.fails
  rw [Fails, hfree, hmissing] at hfails
  rw [hfree, hmissing] at hnone
  split at hfails <;> split at hnone <;> omega

/-- Two buffers with the same bytes to write have the same outcome in every
state exactly when the length check comes out alike for both. In a well-formed
state, for a live file, they also have where the one write that is made fails
unseen, and nowhere else. -/
theorem sameOutcome_everywhere_iff (hcount : 0 ≤ count) (hint : count < 2147483648)
    (hagree : Agree count buf₁ buf₂) :
    ((∀ (s : Sfs) (f : Fin 300) (junk : Mem), 0 ≤ s.openFDTCache f →
        SameOutcome (sfsFwrite junk (f : Nat) buf₁ count s)
          (sfsFwrite junk (f : Nat) buf₂ count s)) ↔
      (TooLong buf₁ ↔ TooLong buf₂)) ∧
    ∀ (s : Sfs) (f : Fin 300) (junk : Mem), WellFormed s → s.Live f →
      0 ≤ s.openFDTCache f → Int32Range (s.openFDTCache f) →
      (SameOutcome (sfsFwrite junk (f : Nat) buf₁ count s)
          (sfsFwrite junk (f : Nat) buf₂ count s) ↔
        (TooLong buf₁ ↔ TooLong buf₂) ∨ FailsUnseen s f count) := by
  refine ⟨⟨fun hall => ?_, fun hlen s f junk _ => ?_⟩, fun s f junk hs hl hopen hrange =>
    sameOutcome_iff hs hl hopen hrange hcount hint hagree junk⟩
  · have hopen : 0 ≤ newFile.openFDTCache 0 := by
      rw [newFile_position]
    have hrange : Int32Range (newFile.openFDTCache 0) := by
      rw [newFile_position]
      exact ⟨by decide, by decide⟩
    exact ((sameOutcome_iff newFile_wellFormed newFile_live hopen hrange hcount hint hagree _).mp
      (hall newFile 0 (fun _ => 0) hopen)).resolve_right (newFile_not_failsUnseen count)
  · rw [sfsFwrite_congr hagree hlen]
    exact .refl _

/-- Two buffers for a byte: a NUL behind it, or no NUL anywhere. -/
def oneByte : Mem := fun i => if i = 0 then 65 else 0

def noNul : Mem := fun _ => 65

theorem oneByte_short : ¬ TooLong oneByte := by
  have h : strnlen oneByte 2048001 0 ≤ 1 := strnlen_le_of_nul (by omega) (by omega) rfl
  unfold TooLong
  omega

theorem strnlen_noNul : ∀ n i : Nat, strnlen noNul n i = i + n
  | 0, _ => rfl
  | n + 1, i => by
      have hne : noNul i ≠ 0 := by
        show (65 : Byte) ≠ 0
        decide
      rw [strnlen, if_neg hne, strnlen_noNul n (i + 1)]
      omega

theorem noNul_tooLong : TooLong noNul := by
  unfold TooLong
  rw [strnlen_noNul]
  omega

theorem oneByte_agree : Agree 1 oneByte noNul := by
  intro i hi
  rw [show i = 0 by omega]
  rfl

theorem sameOutcome_everywhere_one_byte :
    ((∀ (s : Sfs) (f : Fin 300) (junk : Mem), 0 ≤ s.openFDTCache f →
        SameOutcome (sfsFwrite junk (f : Nat) oneByte 1 s)
          (sfsFwrite junk (f : Nat) noNul 1 s)) ↔
      (TooLong oneByte ↔ TooLong noNul)) ∧
    (SameOutcome (sfsFwrite (fun _ => 0) (0 : Fin 300) oneByte 1 newFile)
        (sfsFwrite (fun _ => 0) (0 : Fin 300) noNul 1 newFile) ↔
      (TooLong oneByte ↔ TooLong noNul) ∨ FailsUnseen newFile 0 1) := by
  have h := sameOutcome_everywhere_iff (by decide) (by decide) oneByte_agree
  refine ⟨h.1, h.2 newFile 0 (fun _ => 0) newFile_wellFormed newFile_live ?_ ?_⟩
  · rw [newFile_position]
  · rw [newFile_position]
    exact ⟨by decide, by decide⟩

/-- One byte for a new file: with a NUL behind it in memory it is written, with
none for two million bytes it is refused. -/
theorem one_byte_refused :
    WellFormed newFile ∧ newFile.Live 0 ∧ 0 ≤ newFile.openFDTCache 0 ∧ Agree 1 oneByte noNul ∧
      ¬ SameOutcome (sfsFwrite (fun _ => 0) (0 : Fin 300) oneByte 1 newFile)
        (sfsFwrite (fun _ => 0) (0 : Fin 300) noNul 1 newFile) := by
  have hopen : 0 ≤ newFile.openFDTCache 0 := by
    rw [newFile_position]
  have hrange : Int32Range (newFile.openFDTCache 0) := by
    rw [newFile_position]
    exact ⟨by decide, by decide⟩
  refine ⟨newFile_wellFormed, newFile_live, hopen, oneByte_agree, ?_⟩
  intro h
  rcases (sameOutcome_iff newFile_wellFormed newFile_live hopen hrange (by decide) (by decide)
    oneByte_agree _).mp h with halike | hunseen
  · exact oneByte_short (halike.mpr noNul_tooLong)
  · exact newFile_not_failsUnseen 1 hunseen

end OsConcepts.Sfs
