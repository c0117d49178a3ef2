import OsConcepts.Proofs.Names
import OsConcepts.Proofs.Isolation

/-!
# No block is lost

The blocks marked occupied are those `mksfs(1)` took and those some i-node
refers to: the ledger is tight. Writes acquire and keep it so, and a removal
releases what it takes from the i-node, with one exception: the block that held
the entries is never given back (`remove_leaks`). The stray write can lose
blocks too, when it wipes out the entries of another file.
-/

namespace OsConcepts.Sfs

open OsConcepts

variable {s s' : Sfs} {f g : Fin 300} {c : Call} {ret : Int} {junk : Mem} {fname : CString}

/-- The occupied blocks are those of `mksfs(1)` and those the i-nodes refer to. -/
def Conserved (s : Sfs) : Prop :=
  ∀ junk s₀ (b : Fin 1024), s.freeBlockListCache b = OccupiedBlock ↔
    (mksfs 1 junk s₀).freeBlockListCache b = OccupiedBlock ∨ ∃ f r, s.pointer f r = (b : Nat)

theorem conserved_iff_tight :
    Conserved s ↔ s.ledger.Tight fun b : Fin 1024 => Reserved b := by
  have hheld : ∀ b : Fin 1024, (∃ f r, s.pointer f r = (b : Nat)) ↔ ∃ x, s.ledger.holds x b :=
    fun b => ⟨fun ⟨f, r, h⟩ => ⟨(f, r), h⟩, fun ⟨x, h⟩ => ⟨x.1, x.2, h⟩⟩
  have hstock : ∀ junk s₀ (b : Fin 1024),
      (mksfs 1 junk s₀).freeBlockListCache b = OccupiedBlock ↔ Reserved b :=
    fun junk s₀ b => (mksfs_fresh junk s₀).busy_iff b
  constructor
  · intro h b
    have hb := h (fun _ => 0) s b
    rw [hstock, hheld] at hb
    exact hb
  · intro h junk s₀ b
    rw [hstock, hheld]
    exact h b

/-- The allocator's invariant and no leak so far. -/
structure Accounted (s : Sfs) : Prop extends Owned s where
  tight : s.ledger.Tight fun b : Fin 1024 => Reserved b

theorem Fresh.accounted (h : Fresh s) : Accounted s where
  toOwned := h.owned
  tight b := by
    rw [h.busy_iff]
    refine ⟨Or.inl, fun hb => hb.resolve_right fun ⟨x, hx⟩ => ?_⟩
    have hx' : s.pointer x.1 x.2 = (b : Nat) := hx
    rw [h.pointer] at hx'
    omega

theorem SameBlocks.accounted (h : SameBlocks s s') (hs : Accounted s) : Accounted s' where
  toOwned := h.owned hs.toOwned
  tight := by rw [h.ledger]; exact hs.tight

theorem Confined.accounted (h : Confined f s s') (hs : Accounted s) : Accounted s' where
  toOwned := h.owned
  tight := hs.tight.acquires h.acquires

/-! ## The two leaks -/

/-- Some file would lose entries if the block behind the last direct one of `f`
were overwritten. -/
def EntriesBehind (s : Sfs) (f : Fin 300) : Prop :=
  ∃ b g, LastDirect s f b ∧ s.pointer g .indirect = ((b.val + 1 : Nat) : Int) ∧
    ∃ j, s.pointer g (.entry j) ≠ -1

/-- The calls that lose a block: the removal of a file with an indirect block,
and a write that runs dry in front of one with entries. -/
def Leaks (s : Sfs) : Call → Prop
  | .remove _ fname => badLength (wrap32 fname.length) = false ∧
      ∃ f, findName fname s = some f ∧ s.pointer f .indirect ≠ -1
  | .fwrite _ fd buf count => ∃ f, Accepts s fd buf count f ∧ RunsDry s f count ∧
      EntriesBehind s f
  | _ => False

theorem eraseFile_accounted (hs : Accounted s) (hd : IndirectApart s) {fl : Block} {p : Nat}
    (hfl : Released (s.ReleasedBy f) s.freeBlockListCache fl)
    (hind : s.pointer f .indirect = -1) : Accounted (s.eraseFile f fl p) where
  toOwned := eraseFile_owned hs.toOwned hd hfl
  tight := by
    refine hs.tight.releases (eraseFile_releases hs.toOwned hd hfl)
      (fun b ⟨r, _, hr⟩ => hs.apart f r b hr) ?_
    intro x b hx
    have hx' : s.pointer x.1 x.2 = (b : Nat) := hx
    by_cases hf : x.1 = f
    · refine Or.inr ⟨x.2, fun hr => ?_, by rw [← hf]; exact hx'⟩
      rw [hf, hr, hind] at hx'
      omega
    · refine Or.inl ?_
      show (s.eraseFile f fl p).pointer x.1 x.2 = (b : Nat)
      rw [pointer_eraseFile_other hs.toOwned hd hf]
      exact hx'

/-- A stray write that finds no entries changes no reference. -/
theorem strayWrite_sameBlocks {L : Nat} (hs : NoSharing s) (hpos : s.disk.pos = L * 1024)
    (hL : L < 1024) (hno : ∀ g, s.pointer g .indirect = (L : Nat) →
      ∀ j, s.pointer g (.entry j) = -1) : SameBlocks s s.strayWrite where
  pointer g := pointer_strayWrite_of_no_entries hs hpos hL (hno g)
  freeList := rfl

/-- Every other call keeps the account. -/
theorem exec_accounted (hs : Accounted s) (hd : SavesDirectory s c → IndirectApart s)
    (hleak : ¬ Leaks s c) (h : c.exec s = .ok (ret, s')) : Accounted s' := by
  rcases exec_cases hs.toOwned hd h with
    hsame | ⟨junk, fname, f, fl, p, rfl, hlen, hname, hd', rfl, hfl⟩ |
    ⟨junk, fd, buf, count, rfl, hwrite⟩
  · exact hsame.accounted hs
  · refine eraseFile_accounted hs hd' hfl ?_
    by_contra hind
    exact hleak ⟨hlen, f, hname, hind⟩
  · rcases sfsFwrite_confined_or_stray hs.toOwned hwrite with
      ⟨rfl, -⟩ | ⟨f, ha, ⟨hconf, -⟩ | ⟨hdry, s₁, b, hconf, hind, hb, hlt, hpos, rfl⟩⟩
    · exact hs
    · exact hconf.accounted hs
    · refine (strayWrite_sameBlocks hconf.owned.toNoSharing hpos hlt fun g hg j => ?_).accounted
        (hconf.accounted hs)
      by_contra hentry
      -- The file itself has no indirect block; the others have what they had.
      have hgf : g ≠ f := by
        intro hgf
        rw [hgf, hind] at hg
        omega
      rw [hconf.other g hgf] at hg hentry
      exact hleak ⟨f, ha, hdry, b, g, hb, hg, j, hentry⟩

/-! ## Runs -/

/-- The calls that lose no block, and do not save the directory over an
indirect block. -/
def conserving : System Sfs (Call × Int) :=
  system.guard fun s x => ¬ Leaks s x.1 ∧ (SavesDirectory s x.1 → IndirectApart s)

theorem accounted_of_conserving (h : conserving.Reachable s) : Accounted s := by
  refine System.Reachable.invariant (I := Accounted) (fun s hinit => ?_)
    (fun s x s' hs hstep => ?_) h
  · obtain ⟨junk, s₀, rfl⟩ := hinit
    exact (mksfs_fresh junk s₀).accounted
  · obtain ⟨⟨hleak, hdir⟩, hexec⟩ := hstep
    exact exec_accounted hs hdir hleak hexec

/-- As long as no call leaks, the occupied blocks are accounted for; and a file
that is removed then has given all its blocks back. -/
theorem conserved_of_conserving (h : conserving.Reachable s) :
    Conserved s ∧ ∀ junk fname f s', conserving.step s (.remove junk fname, 0) s' →
      findName fname s = some f → ∀ r (b : Fin 1024), s.pointer f r = (b : Nat) →
        s'.freeBlockListCache b = FreeBlock := by
  have hs := accounted_of_conserving h
  refine ⟨conserved_iff_tight.mpr hs.tight, ?_⟩
  intro junk fname f s' hstep hname r b hb
  obtain ⟨⟨hleak, -⟩, hexec⟩ := hstep
  have hrem : sfsRemove junk fname s = .ok (0, s') := hexec
  rcases sfsRemove_cases hs.toNoSharing hrem with ⟨hret, -⟩ | ⟨g, fl, p, hlen, hg, -, rfl, hfl⟩
  · omega
  · have hgf : g = f := Option.some.inj (hg.symm.trans hname)
    subst hgf
    rw [freeBlockListCache_eraseFile]
    refine (hfl b).1 ⟨r, fun hr => hleak ⟨hlen, g, hname, ?_⟩, hb⟩
    rw [hr] at hb
    omega

/-- A file of one block. -/
theorem conserved_after_new_file :
    ∃ s, conserving.Reachable s ∧ s.pointer 0 (.direct 0) ≠ -1 ∧ Conserved s := by
  have h := formatted_fresh
  have hopen := h.sfsFopen_letter (b := 65) (by decide)
  have hsame := h.createFile_sameBlocks (letter 65 (by decide))
  have hsize := createFile_size formatted 0 (letter 65 (by decide))
  have hfdt := createFile_position formatted 0 (letter 65 (by decide))
  obtain ⟨data, s₀, s₁, hwrite, hre, hP⟩ := write_new_file (fun _ => 0) (n := 1)
    (hsame.owned h.owned) (h.createFile_pointer _ 0) hsize hfdt (by omega)
    (by rw [h.createFile_freeBelow]; omega)
  have hstart : conserving.Reachable formatted := .start ⟨_, _, rfl⟩
  have hr₁ : conserving.Reachable (formatted.createFile 0 (letter 65 (by decide))) :=
    hstart.step (a := (.fopen (letter 65 (by decide)), _))
      ⟨⟨id, fun _ => h.isolated.indirectApart⟩, congrArg Except.ok hopen⟩
  have hdry : ¬ Leaks (formatted.createFile 0 (letter 65 (by decide)))
      (.fwrite (fun _ => 0) ((0 : Fin 300) : Nat) (fun _ => 0) (1 * 1024 : Nat)) := by
    intro ⟨f, ha, hdry, _⟩
    have hf : f = 0 := ha.eq_of_natCast
    have hpast := hdry.past
    rw [hf, blocksToWrite_new hsize hfdt (by omega)] at hpast
    omega
  have hr₂ : conserving.Reachable (s₁.finishWrite 0 (1 * 1024 : Nat)) :=
    hr₁.step (a := (.fwrite (fun _ => 0) ((0 : Fin 300) : Nat) (fun _ => 0) (1 * 1024 : Nat),
      (1 * 1024 : Nat))) ⟨⟨hdry, False.elim⟩, hwrite⟩
  refine ⟨_, hr₂, ?_, (conserved_of_conserving hr₂).1⟩
  rw [(finishWrite_sameBlocks hP.owned _).pointer]
  have hthere := hP.there 0 (by omega) (by omega)
  rwa [blockPointer_eq (by omega), dataRef_direct (by omega)] at hthere

/-! ## The indirect block -/

/-- Removing a file with an indirect block leaves that block occupied and
nobody's. -/
theorem remove_leaks (hs : Owned s) (hd : IndirectApart s) (hlive : findName fname s = some f)
    (hind : s.pointer f .indirect ≠ -1)
    (h : sfsRemove junk fname s = .ok (0, s')) : ¬ Conserved s' := by
  intro hcons
  rcases sfsRemove_cases hs.toNoSharing h with ⟨hret, -⟩ | ⟨g, fl, p, -, hg, -, rfl, hfl⟩
  · omega
  · have hgf : g = f := Option.some.inj (hg.symm.trans hlive)
    subst hgf
    obtain ⟨a, ha, -⟩ := hs.nat_of_pointer hind
    have hunreleased : ¬ s.ReleasedBy g a := fun ⟨r, hr, hra⟩ => by
      have heq : s.pointer g r = s.pointer g .indirect := hra.trans ha.symm
      exact hr (congrArg Prod.snd (hs.eq_of_pointer_eq heq (by omega)))
    have hbusy : fl a = OccupiedBlock := by
      rw [(hfl a).2 hunreleased]
      exact hs.sound.accounted (i := (g, .indirect)) ha
    rcases (conserved_iff_tight.mp hcons a).mp (by
      show (s.eraseFile g fl p).freeBlockListCache a = _
      rw [freeBlockListCache_eraseFile, hbusy]) with hres | ⟨⟨g', r⟩, hheld⟩
    · exact hs.apart g .indirect a ha hres
    · have hheld' : (s.eraseFile g fl p).pointer g' r = (a : Nat) := hheld
      by_cases hg' : g' = g
      · rw [hg', pointer_eraseFile_self] at hheld'
        omega
      · rw [pointer_eraseFile_other hs hd hg'] at hheld'
        have heq : s.pointer g' r = s.pointer g .indirect := hheld'.trans ha.symm
        exact hg' (congrArg Prod.fst (hs.eq_of_pointer_eq heq (by omega)))

/-- The calls a leak is looked for in. -/
def FileCall : Call → Prop
  | .getnextfilename _ => False
  | .getfilesize _ => False
  | _ => True

theorem indirect_of_entry {j : Fin 256} (h : s.pointer f (.entry j) ≠ -1) :
    s.pointer f .indirect ≠ -1 := by
  intro hind
  have hind' : (s.iNodes f).indirectPointer = -1 := hind
  exact h (by simp only [pointer, hind', if_true])

/-- A file of thirteen blocks, written and removed. -/
theorem indirect_block_lost :
    ¬ ∀ s, (system.guard fun _ x => FileCall x.1).Reachable s → Conserved s := by
  intro hall
  have h := formatted_fresh
  have hroom : 13 + 1 ≤ formatted.freeBelow 301 := by
    rw [show 301 = 18 + 283 from rfl, h.freeBelow (by omega)]
    omega
  obtain ⟨t, data, s₀, s₁, hopen, hwrite, hfits, -, hP, -⟩ := new_file_steps (n := 13) (b := 65)
    h.owned h.low.isolated.indirectApart (by decide) (fun g => by rw [h.names]; decide)
    h.findEmpty h.pointer (by omega) (by rw [h.freeBelow_all]; omega)
  generalize hu : s₁.finishWrite 0 (13 * 1024 : Nat) = u at hwrite
  -- The file is found under its name.
  have hv := validName_letter (b := 65) (by decide)
  have hkeeps : KeepsApart formatted (.fopen (letter 65 (by decide))) := fun f _ _ =>
    ⟨fun _ g _ hl => hl (h.names g), fun g _ hl => absurd (h.names g) hl⟩
  have hlow_t : Low t := exec_low (c := .fopen _) h.low trivial hopen
  have hnamed_t : Named t := exec_named (c := .fopen _) h.owned h.named hv hkeeps hopen
  have hlow_u : Low u := exec_low (c := .fwrite _ _ _ _) hlow_t (hfits 301 hroom) hwrite
  have hnamed_u : Named u :=
    exec_named (c := .fwrite _ _ _ _) hlow_t.toOwned hnamed_t trivial trivial hwrite
  obtain ⟨f, hslot, hholds⟩ :=
    sfsFopen_holds h.named hv (Int.natCast_nonneg _) (Except.ok.inj hopen)
  have hf : f = 0 := (Option.some.inj ((slot?_natCast 0).symm.trans hslot)).symm
  rw [hf] at hholds
  have hfound := (hnamed_u.findName_eq_some hv).mpr
    (exec_holds (c := .fwrite _ _ _ _) hlow_t.toOwned hnamed_t trivial hwrite hv hholds
      fun _ hno => by cases hno)
  have hind : u.pointer 0 .indirect ≠ -1 := by
    rw [← hu, (finishWrite_sameBlocks hP.owned _).pointer]
    have hthere := hP.there 12 (by omega) (by omega)
    rw [blockPointer_eq (by omega), dataRef_entry (by omega) (by omega)] at hthere
    exact indirect_of_entry hthere
  obtain ⟨⟨ret, w⟩, hrem⟩ :=
    sfsRemove_ok (fun _ => 0) (letter 65 (by decide)) hlow_u.toNoSharing
  have hret : ret = 0 := by
    rcases sfsRemove_cases hlow_u.toNoSharing hrem with ⟨-, -, hno⟩ | ⟨_, _, _, -, -, hret, -⟩
    · exact absurd ⟨hv.badLength, by rw [hfound]; rfl⟩ hno
    · exact hret
  subst hret
  have hstart : (system.guard fun _ x => FileCall x.1).Reachable formatted := .start ⟨_, _, rfl⟩
  have hr₁ : (system.guard fun _ x => FileCall x.1).Reachable t :=
    hstart.step (a := (.fopen (letter 65 (by decide)), _)) ⟨trivial, hopen⟩
  have hr₂ : (system.guard fun _ x => FileCall x.1).Reachable u :=
    hr₁.step (a := (.fwrite (fun _ => 0) ((0 : Fin 300) : Nat) (fun _ => 0) (13 * 1024 : Nat),
      (13 * 1024 : Nat))) ⟨trivial, hwrite⟩
  have hr₃ : (system.guard fun _ x => FileCall x.1).Reachable w :=
    hr₂.step (a := (.remove (fun _ => 0) (letter 65 (by decide)), 0))
      ⟨trivial, (exec_remove _ _ u).trans hrem⟩
  have hleak : ¬ Conserved w :=
    remove_leaks hlow_u.toOwned hlow_u.isolated.indirectApart hfound hind hrem
  exact hleak (hall w hr₃)

end OsConcepts.Sfs
