import OsConcepts.Proofs.SfsCalls

/-!
# Where the stray write lands

A write that has all its direct pointers and finds no free block for the
indirect one sends a block of ones to address -1, and the disk puts it where
the stream stands: behind the block of the twelfth direct pointer. When that
happens (`RunsDry`) and which block it is (`LastDirect`) can be told from the
state the call starts in, since the loop hands out the free blocks in order.

Every other outcome is `Confined` to the file that is written. So is the stray
one, up to the block it fills.
-/

namespace OsConcepts.Sfs

open OsConcepts

variable {s s' s'' : Sfs} {f g : Fin 300} {junk buf data : Mem} {fd count ret fileSize : Int}
  {n : Nat}

/-! ## Writes that keep to their file -/

/-- Only file `f` and the blocks it has or is given have changed. -/
structure Confined (f : Fin 300) (s s' : Sfs) : Prop where
  owned : Owned s'
  acquires : s.ledger.Acquires s'.ledger
  other : ∀ g, g ≠ f → s'.pointer g = s.pointer g
  inode : ∀ g, g ≠ f → s'.iNodes g = s.iNodes g
  descriptor : ∀ g, g ≠ f → s'.openFDTCache g = s.openFDTCache g
  directory : s'.rootDirectoryCache = s.rootDirectoryCache
  block : ∀ g, g ≠ f → ∀ k, s.blockPointer g k ≠ -1 →
    s'.disk.block (s.blockPointer g k).toNat = s.disk.block (s.blockPointer g k).toNat

theorem Confined.trans (h : Confined f s s') (h' : Confined f s' s'') : Confined f s s'' where
  owned := h'.owned
  acquires := h.acquires.trans h'.acquires
  other g hg := (h'.other g hg).trans (h.other g hg)
  inode g hg := (h'.inode g hg).trans (h.inode g hg)
  descriptor g hg := (h'.descriptor g hg).trans (h.descriptor g hg)
  directory := h'.directory.trans h.directory
  block g hg k hk := by
    have hbp : s'.blockPointer g k = s.blockPointer g k := blockPointer_congr (h.other g hg) k
    have hlater := h'.block g hg k (by rw [hbp]; exact hk)
    rw [hbp] at hlater
    exact hlater.trans (h.block g hg k hk)

theorem Rereads.confined (h : Rereads f s s') (hs : Owned s) : Confined f s s' := by
  have hsame := h.sameBlocks
  obtain ⟨p, q, rfl⟩ := h
  exact
    { owned := hsame.owned hs
      acquires := by rw [hsame.ledger]; exact .refl hs.sound
      other := fun g _ => hsame.pointer g
      inode := fun g _ => by simp
      descriptor := fun g hg => by simp [hg]
      directory := by simp [setReadWritePointer]
      block := fun g _ k _ => by simp }

theorem Extends.confined (h : Extends f s s') (hs : Owned s) (hs' : Owned s') :
    Confined f s s' where
  owned := hs'
  acquires := h.acquires
  other := h.other
  inode := h.inode_other
  descriptor g _ := by rw [h.descriptors]
  directory := h.directory
  block g hg k hk := by
    obtain ⟨hlt, hnat⟩ := hs.blockPointer_lt hk
    have hbp : s'.blockPointer g k = s.blockPointer g k := blockPointer_congr (h.other g hg) k
    have hk' : s'.blockPointer g k ≠ -1 := by rwa [hbp]
    have hk268 : k < 268 := by
      by_contra hge
      exact hk (blockPointer_past (by omega))
    refine h.frame _ (by omega) (by omega) fun r hr => hg ?_
    rw [blockPointer_eq hk268] at hbp hk' hnat
    have heq : s'.pointer g (dataRef k hk268) = s'.pointer f r := by
      rw [hr, hbp, blockPointer_eq hk268]
      exact hnat
    exact congrArg Prod.fst (hs'.eq_of_pointer_eq heq hk')

theorem finishWrite_confined (hs : Owned s) (fileSize : Int) :
    Confined f s (s.finishWrite f fileSize) where
  owned := (finishWrite_sameBlocks hs fileSize).owned hs
  acquires := by rw [(finishWrite_sameBlocks hs fileSize).ledger]; exact .refl hs.sound
  other g _ := (finishWrite_sameBlocks hs fileSize).pointer g
  inode g hg := by rw [iNodes_finishWrite, if_neg hg]
  descriptor g hg := by simp [finishWrite, hg]
  directory := by simp [finishWrite]
  block g _ k hk := by
    obtain ⟨hlt, -⟩ := hs.blockPointer_lt hk
    exact block_finishWrite (by omega) (hs.blockPointer_not_reserved hk)

/-- The stray write takes references away and nothing else. -/
theorem strayWrite_owned {L : Nat} (hs : Owned s) (hpos : s.disk.pos = L * 1024) :
    Owned s.strayWrite where
  toNoSharing := strayWrite_noSharing hs.toNoSharing hpos
  reserved := hs.reserved
  apart f r b hb := by
    rcases strayWrite_kept_or_gone hs.toNoSharing hpos f r with h | h
    · exact hs.apart f r b (h.symm.trans hb)
    · omega

/-- A file that loses no entries keeps all its pointers. -/
theorem pointer_strayWrite_of_no_entries {L : Nat} (hs : NoSharing s)
    (hpos : s.disk.pos = L * 1024) (hL : L < 1024)
    (hno : s.pointer g .indirect = (L : Nat) → ∀ j, s.pointer g (.entry j) = -1) :
    s.strayWrite.pointer g = s.pointer g := by
  by_cases hind : s.pointer g .indirect = (L : Nat)
  · refine funext ?_
    intro r
    cases r with
    | direct i => simp only [pointer, iNodes_strayWrite]
    | indirect => simp only [pointer, iNodes_strayWrite]
    | entry j => rw [pointer_strayWrite_entry hpos hL hind, hno hind]
  · exact pointer_strayWrite hs hpos hind

/-! ## Running dry -/

/-- A write past the direct pointers of a file without indirect block, with as
many blocks free as the direct pointers are missing. -/
structure RunsDry (s : Sfs) (f : Fin 300) (count : Int) : Prop where
  past : 12 < s.blocksToWrite f count
  indirect : s.pointer f .indirect = -1
  dry : s.freeBelow 1024 = s.missing f 0 12

/-- The block the last direct pointer names once the free blocks are used up:
the one it names already, or else the last free one. -/
def LastDirect (s : Sfs) (f : Fin 300) (b : Fin 1024) : Prop :=
  s.pointer f (.direct 11) = (b : Nat) ∨
    s.pointer f (.direct 11) = -1 ∧ s.freeCell b = true ∧ ∀ c, s.freeCell c = true → c ≤ b

theorem LastDirect.unique {b c : Fin 1024} (hb : LastDirect s f b) (hc : LastDirect s f c) :
    b = c := by
  rcases hb with hb | ⟨hb, hfree, hlast⟩
  · rcases hc with hc | ⟨hc, -, -⟩
    · exact Fin.ext (by omega)
    · omega
  · rcases hc with hc | ⟨-, hfree', hlast'⟩
    · omega
    · exact le_antisymm (hlast' b hfree) (hlast c hfree')

theorem SameBlocks.lastDirect (h : SameBlocks s s') {b : Fin 1024} :
    LastDirect s' f b ↔ LastDirect s f b := by
  have hcell : s'.freeCell = s.freeCell := by unfold freeCell; rw [h.freeList]
  unfold LastDirect
  rw [h.pointer, hcell]

/-- Behind the twelfth direct block, that is where the stream stands. -/
theorem Progress.lastDirect (h : Progress f 0 12 data s s')
    (hdry : s.freeBelow 1024 = s.missing f 0 12) :
    ∃ b : Fin 1024, LastDirect s f b ∧ b.val + 1 < 1024 ∧
      s'.disk.pos = (b.val + 1) * 1024 := by
  have hdirect : ∀ t : Sfs, t.blockPointer f 11 = t.pointer f (.direct 11) := fun t =>
    blockPointer_direct (11 : Fin 12)
  have hthere := h.there 11 (by omega) (by omega)
  obtain ⟨hlt, hnat⟩ := h.owned.blockPointer_lt hthere
  rw [hdirect] at hthere hlt hnat
  obtain ⟨b, hb, -⟩ := h.owned.nat_of_pointer hthere
  refine ⟨b, ?_, by omega, ?_⟩
  · by_cases hold : s.pointer f (.direct 11) = -1
    · refine Or.inr ⟨hold, ?_, fun c hc => ?_⟩
      · rcases h.ext.acquires.fresh (i := (f, .direct 11)) hb with hheld | hfree
        · have hheld' : s.pointer f (.direct 11) = (b : Nat) := hheld
          omega
        · simpa [Sfs.freeCell, ledger] using hfree
      · -- The blocks counted up to `b` are all there were.
        have horder := h.order 11 (by omega) (by omega) (by rw [hdirect, hold])
        rw [hdirect, hb, Int.toNat_natCast, Nat.sub_zero] at horder
        have hsucc : s.missing f 0 12 = s.missing f 0 11 + s.need f 11 := missing_succ s f 0 11
        have hneed : s.need f 11 = 1 := by
          unfold need
          rw [hdirect, if_pos hold, if_neg (by omega)]
        have hall : s.freeBelow 1024 ≤ s.freeBelow (b.val + 1) := by omega
        exact Fin.le_def.mpr (Nat.le_of_lt_succ (FirstFit.lt_of_counted hall hc))
    · exact Or.inl ((h.ext.keeps _ hold).symm.trans hb)
  · have hstream := h.stream
    rw [if_neg (by omega), hdirect, hb, Int.toNat_natCast] at hstream
    exact hstream

/-- Getting past index 12 takes two blocks more than running dry leaves. -/
theorem Progress.not_dry {m : Nat} (hP : Progress f 0 m data s s') (hm : 13 ≤ m) :
    ¬ (s.pointer f .indirect = -1 ∧ s.freeBelow 1024 = s.missing f 0 12) := by
  rintro ⟨hind, hdry⟩
  have hmono := missing_mono (s := s) (f := f) (k := 0) hm
  have hsucc : s.missing f 0 13 = s.missing f 0 12 + s.need f 12 := missing_succ s f 0 12
  have hneed := need_of_no_indirect hind
  have := hP.enough
  omega

theorem Stops.eq_strayWrite {s₁ : Sfs} (hstop : Stops f 12 s₁ s')
    (hind : s₁.pointer f .indirect = -1) (hfree : s₁.freeBelow 1024 = 0) :
    s' = s₁.strayWrite := by
  cases hstop with
  | past p hk => omega
  | full hk hshort hone =>
      have := hone rfl hind
      omega
  | stray => rfl

/-- A loop that has stopped for another reason was not running dry. -/
theorem Stops.not_dry {m : Nat} {s₁ : Sfs} (hP : Progress f 0 m data s s₁)
    (hstop : Stops f m s₁ s')
    (hsteady : ¬ (m = 12 ∧ s₁.pointer f .indirect = -1 ∧ s₁.freeBelow 1024 = 0)) :
    ¬ (s.pointer f .indirect = -1 ∧ s.freeBelow 1024 = s.missing f 0 12) := by
  cases hstop with
  | past p hk => exact hP.not_dry (by omega)
  | full hk hfree hone hnone howned hext =>
      rintro ⟨hind, hdry⟩
      have hcount := hP.count 1024
      rcases Nat.lt_trichotomy m 12 with hlt | rfl | hgt
      · have hneed := hP.need_eq (j := m) (by omega)
        have hsucc : s.missing f 0 (m + 1) = s.missing f 0 m + s.need f (0 + m) :=
          missing_succ s f 0 m
        have hmono := missing_mono (s := s) (f := f) (k := 0) (m := m + 1) (n := 12) (by omega)
        rw [Nat.zero_add] at hsucc
        omega
      · have := hone rfl (by rw [hP.indirect (by omega), hind])
        omega
      · exact hP.not_dry hgt ⟨hind, hdry⟩
  | stray hk hind hfree => exact absurd ⟨hk, hind, hfree⟩ hsteady

/-- A write keeps to its file, unless it runs dry: then it keeps to it up to the
stray write. -/
theorem WriteOutcome.confined_or_stray (hs : Owned s)
    (h : WriteOutcome f n data fileSize count s ret s') :
    Confined f s s' ∧ ¬ (12 < n ∧ s.pointer f .indirect = -1 ∧
      s.freeBelow 1024 = s.missing f 0 12) ∨
    (12 < n ∧ s.pointer f .indirect = -1 ∧ s.freeBelow 1024 = s.missing f 0 12) ∧
      ∃ s₁ b, Confined f s s₁ ∧ s₁.pointer f .indirect = -1 ∧ LastDirect s f b ∧
        b.val + 1 < 1024 ∧ s₁.disk.pos = (b.val + 1) * 1024 ∧ s' = s₁.strayWrite := by
  cases h with
  | done hP =>
      exact Or.inl ⟨(hP.ext.confined hs hP.owned).trans (finishWrite_confined hP.owned _),
        fun h => hP.not_dry h.1 h.2⟩
  | @stopped m s₁ s' hm hP hstop =>
      have hconf := hP.ext.confined hs hP.owned
      cases hstop with
      | past p hk =>
          exact Or.inl ⟨hconf.trans ((Rereads.seek f s₁ p).confined hP.owned),
            fun h => hP.not_dry (by omega) h.2⟩
      | full hk hfree hone hnone howned hext hbp hframe =>
          refine Or.inl ⟨hconf.trans (hext.confined hP.owned howned), ?_⟩
          intro h
          refine (Stops.full hk hfree hone hnone howned hext hbp hframe).not_dry hP ?_ h.2
          rintro ⟨h12, hind, hzero⟩
          have := hone h12 hind
          omega
      | stray hk hind hfree =>
          subst hk
          have hind' : s.pointer f .indirect = -1 := by rw [← hP.indirect (by omega), hind]
          have hdry : s.freeBelow 1024 = s.missing f 0 12 := by
            have := hP.count 1024
            have := hP.enough
            omega
          obtain ⟨b, hb, hlt, hpos⟩ := hP.lastDirect hdry
          exact Or.inr ⟨⟨hm, hind', hdry⟩, s₁, b, hconf, hind, hb, hlt, hpos, rfl⟩

/-- The same for a call that is accepted. -/
theorem sfsFwrite_confined_or_stray (hs : Owned s)
    (h : sfsFwrite junk fd buf count s = .ok (ret, s')) :
    s' = s ∧ (∀ f, ¬ Accepts s fd buf count f) ∨
    ∃ f, Accepts s fd buf count f ∧
      (Confined f s s' ∧ ¬ RunsDry s f count ∨
      RunsDry s f count ∧ ∃ s₁ b, Confined f s s₁ ∧ s₁.pointer f .indirect = -1 ∧
        LastDirect s f b ∧ b.val + 1 < 1024 ∧ s₁.disk.pos = (b.val + 1) * 1024 ∧
        s' = s₁.strayWrite) := by
  rcases sfsFwrite_cases hs h with ⟨-, hsame, hno⟩ | ⟨f, data, s₀, ha, hload, hout⟩
  · exact Or.inl ⟨hsame, hno⟩
  · have hre := loadFileData_rereads hload
    have hsame := hre.sameBlocks
    have hdry : (12 < s.blocksToWrite f count ∧ s₀.pointer f .indirect = -1 ∧
        s₀.freeBelow 1024 = s₀.missing f 0 12) ↔ RunsDry s f count := by
      rw [hsame.pointer, hsame.freeBelow, hsame.missing]
      exact ⟨fun h => ⟨h.1, h.2.1, h.2.2⟩, fun h => ⟨h.past, h.indirect, h.dry⟩⟩
    refine Or.inr ⟨f, ha, ?_⟩
    rcases hout.confined_or_stray (hsame.owned hs) with
      ⟨hconf, hnot⟩ | ⟨hruns, s₁, b, hconf, hind, hb, hlt, hpos, hs'⟩
    · exact Or.inl ⟨(hre.confined hs).trans hconf, fun h => hnot (hdry.mpr h)⟩
    · exact Or.inr ⟨hdry.mp hruns, s₁, b, (hre.confined hs).trans hconf,
        hind, hsame.lastDirect.mp hb, hlt, hpos, hs'⟩

end OsConcepts.Sfs
