import OsConcepts.Proofs.WriteSplice
import OsConcepts.Proofs.StrayWrite

/-!
# A write and the other files

What a write does to the files it is not meant for. Through all of its loop,
and where it fails for want of blocks, it keeps to its own file; only the stray
write may hit another one (`StrayHit`), and then the file it hits loses entries
or data. Without a hit the others are as they were, and reading them shows it.
-/

namespace OsConcepts.Sfs

open OsConcepts

variable {s s' s₁ : Sfs} {f g : Fin 300} {junk junk' buf : Mem} {fd count ret : Int}

/-- Isolated blocks, and every live file of a size the pointers can serve has
its blocks. -/
structure Intact (s : Sfs) : Prop extends Isolated s where
  backed : ∀ f, s.Live f → 0 ≤ (s.iNodes f).size → (s.iNodes f).size ≤ 268 * 1024 →
    ∀ k : Nat, (k : Int) < numBlocksForFile (s.iNodes f).size → s.blockPointer f k ≠ -1

theorem Intact.backed_of_size (h : Intact s) (hl : s.Live f) (hlow : 0 ≤ (s.iNodes f).size)
    (hhigh : (s.iNodes f).size ≤ 268 * 1024) : Backed s f :=
  ⟨hlow, hhigh, h.backed f hl hlow hhigh⟩

theorem WellFormed.intact (h : WellFormed s) : Intact s where
  toIsolated := h.toIsolated
  backed f hl _ _ := (h.backed f hl).2.2

/-! ## Reading a file as a whole -/

/-- What a reader sees of a file: it is open, as `sfs_fopen` leaves it, and is
read from its start to its end. -/
def readFile (junk : Mem) (g : Fin 300) (s : Sfs) : Except Fault (List Byte) :=
  readAll junk g (s.setReadWritePointer g (s.iNodes g).size)

theorem readFile_eq (hs : InRange s g) (hb : Backed s g) :
    readFile junk g s = .ok (s.contents g) := by
  have hmove : Rereads g s (s.setReadWritePointer g (s.iNodes g).size) := .move g s _
  rw [readFile, readAll_eq (hs.congr (hmove.sameBlocks.pointer g)) (hmove.backed hb)
      (by simp; exact hb.1),
    hmove.contents]

variable (junk) in
/-- Block 268 and those after it are never found. -/
theorem readLoop_past (node : INode) : ∀ {n k : Nat} {r : ReadState}, k ≤ 268 → 268 < k + n →
    (readLoop junk node n k r).2 = false := by
  intro n
  induction n with
  | zero => intro k r h h'; omega
  | succ n ih =>
      intro k r hk hpast
      rw [readLoop]
      rcases hstep : readStep junk node k r with ⟨r₁, b⟩
      cases b with
      | false => rfl
      | true =>
          by_cases hlast : k = 268
          · rw [readStep, dif_neg (by omega)] at hstep
            dsimp only at hstep
            rw [dif_neg (by omega)] at hstep
            cases hstep
          · exact ih (by omega) (by omega)

theorem readFile_of_neg (h : (s.iNodes g).size < 0) : readFile junk g s = .ok [] := by
  have hnode : (s.setReadWritePointer g (s.iNodes g).size).iNodes g = s.iNodes g := by simp
  rw [readFile, readAll, sfsFseek, if_neg (by omega), slot?_natCast]
  dsimp only
  rw [if_pos (by rw [hnode]; omega)]
  show Except.bind (sfsFread junk (g : Nat) _ _) (fun x => .ok x.2.1) = _
  rw [sfsFread, hnode, if_pos h]
  rfl

theorem readFile_of_large (h : 268 * 1024 < (s.iNodes g).size) :
    readFile junk g s =
      if wrap32 (numBlocksForFile (s.iNodes g).size * 1024) < 0 then .error .bufferOverrun
      else .ok [] := by
  have hblocks := numBlocksForFile_eq (show 0 ≤ (s.iNodes g).size by omega)
  have hnode : ∀ q, (s.setReadWritePointer g q).iNodes g = s.iNodes g := fun q => by simp
  have hnode₂ : ∀ q q', ((s.setReadWritePointer g q).setReadWritePointer g q').iNodes g =
      s.iNodes g := fun q q' => by simp
  rw [readFile, readAll, sfsFseek_eq (Int.le_refl 0) (by rw [hnode]; omega) (by simp; omega)]
  show Except.bind (sfsFread junk (g : Nat) _ _) (fun x => .ok x.2.1) = _
  rw [sfsFread, hnode₂, if_neg (by omega), slot?_natCast]
  dsimp only
  rw [hnode₂, if_neg (by simp)]
  by_cases hcap : wrap32 (numBlocksForFile (s.iNodes g).size * 1024) < 0
  · rw [if_pos hcap, if_pos hcap]
    rfl
  · rw [if_neg hcap, if_neg hcap]
    have hpast := readLoop_past junk (s.iNodes g)
      (n := (numBlocksForFile (s.iNodes g).size).toNat) (k := 0)
      (r := ⟨fun _ => 0, fun _ => 0, none,
        ((s.setReadWritePointer g (s.iNodes g).size).setReadWritePointer g 0).disk⟩)
      (by omega) (by omega)
    rcases hloop : readLoop junk (s.iNodes g) (numBlocksForFile (s.iNodes g).size).toNat 0
      ⟨fun _ => 0, fun _ => 0, none,
        ((s.setReadWritePointer g (s.iNodes g).size).setReadWritePointer g 0).disk⟩ with ⟨r, b⟩
    rw [hloop] at hpast
    dsimp only at hpast
    subst hpast
    rfl

/-- A file no pointers can serve reads the same whatever else the state is. -/
theorem readFile_of_size (hsize : (s'.iNodes g).size = (s.iNodes g).size)
    (hout : (s.iNodes g).size < 0 ∨ 268 * 1024 < (s.iNodes g).size) :
    readFile junk' g s' = readFile junk g s := by
  rcases hout with hneg | hlarge
  · rw [readFile_of_neg hneg, readFile_of_neg (by omega)]
  · rw [readFile_of_large hlarge, readFile_of_large (by omega), hsize]

/-! ## The other files -/

/-- Every live file but `f` has its size, pointers and descriptor, and reads as
it did. -/
def Unaffected (f : Fin 300) (s s' : Sfs) : Prop :=
  ∀ g, g ≠ f → s.Live g →
    (s'.iNodes g).size = (s.iNodes g).size ∧ s'.pointer g = s.pointer g ∧
    s'.openFDTCache g = s.openFDTCache g ∧
    ∀ junk junk', readFile junk' g s' = readFile junk g s

/-- A file with the same pointers reads the same when its bytes are. -/
theorem readFile_congr (hs : InRange s g)
    (hb : 0 ≤ (s.iNodes g).size → (s.iNodes g).size ≤ 268 * 1024 → Backed s g)
    (hsize : (s'.iNodes g).size = (s.iNodes g).size) (hp : s'.pointer g = s.pointer g)
    (hbytes : ∀ i : Nat, (i : Int) < (s.iNodes g).size → (s.iNodes g).size ≤ 268 * 1024 →
      s.blockPointer g (i / 1024) ≠ -1 → s'.byteAt g i = s.byteAt g i) :
    readFile junk' g s' = readFile junk g s := by
  by_cases hout : (s.iNodes g).size < 0 ∨ 268 * 1024 < (s.iNodes g).size
  · exact readFile_of_size hsize hout
  · have hb := hb (by omega) (by omega)
    have hblocks := numBlocksForFile_eq hb.1
    have hb' : Backed s' g := by
      refine ⟨by omega, by omega, ?_⟩
      intro k hk
      rw [hsize] at hk
      rw [blockPointer_congr hp]
      exact hb.2.2 k hk
    rw [readFile_eq (hs.congr hp) hb', readFile_eq hs hb, contents, contents, hsize]
    refine congrArg Except.ok (List.map_congr_left fun i hi => ?_)
    rw [List.mem_range] at hi
    exact hbytes i (by omega) hb.2.1 (hb.2.2 _ (by omega))

theorem byteAt_congr {i : Nat} (hp : s'.pointer g = s.pointer g)
    (hb : s'.disk.block (s.blockPointer g (i / 1024)).toNat =
      s.disk.block (s.blockPointer g (i / 1024)).toNat) : s'.byteAt g i = s.byteAt g i := by
  rw [byteAt, byteAt, blockPointer_congr hp, hb]

theorem Confined.unaffected (h : Confined f s s') (hs : Intact s) : Unaffected f s s' :=
  fun g hg hl => ⟨by rw [h.inode g hg], h.other g hg, h.descriptor g hg, fun _ _ =>
    readFile_congr (hs.range g) (hs.backed_of_size hl) (by rw [h.inode g hg]) (h.other g hg)
      fun _ _ _ hne => byteAt_congr (h.other g hg) (h.block g hg _ hne)⟩

/-! ## The stray write -/

/-- Behind the last direct block of `f` lies a block that matters to another
live file: an indirect block with entries, or a block with a byte of the file
that is not all ones. -/
def HitsOther (s : Sfs) (f : Fin 300) : Prop :=
  ∃ b g, LastDirect s f b ∧ g ≠ f ∧ s.Live g ∧
    (s.pointer g .indirect = ((b.val + 1 : Nat) : Int) ∧ (∃ j, s.pointer g (.entry j) ≠ -1) ∨
      ∃ i : Nat, (i : Int) < (s.iNodes g).size ∧ (s.iNodes g).size ≤ 268 * 1024 ∧
        s.blockPointer g (i / 1024) = ((b.val + 1 : Nat) : Int) ∧ s.byteAt g i ≠ 255)

theorem byteAt_strayWrite {L i : Nat} (hs : NoSharing s) (hpos : s.disk.pos = L * 1024)
    (hp : s.strayWrite.pointer g = s.pointer g) (hne : s.blockPointer g (i / 1024) ≠ -1) :
    s.strayWrite.byteAt g i =
      if s.blockPointer g (i / 1024) = (L : Nat) then 255 else s.byteAt g i := by
  have hk : i / 1024 < 268 := by
    by_contra hge
    exact hne (blockPointer_past (by omega))
  obtain ⟨c, hc, -⟩ := hs.nat_of_pointer (by rwa [blockPointer_eq hk] at hne)
  rw [← blockPointer_eq hk] at hc
  have hlt := c.isLt
  rw [byteAt, byteAt, blockPointer_congr hp, hc, Int.toNat_natCast,
    block_strayWrite hpos (by omega)]
  by_cases hcL : c.val = L
  · rw [if_pos hcL, if_pos (by omega)]
  · rw [if_neg hcL, if_neg (by omega)]

theorem strayWrite_unaffected (hs : Intact s) {b : Fin 1024} (hconf : Confined f s s₁)
    (hb : LastDirect s f b) (hpos : s₁.disk.pos = (b.val + 1) * 1024) (hlt : b.val + 1 < 1024)
    (hno : ¬ HitsOther s f) : Unaffected f s s₁.strayWrite := by
  intro g hg hl
  have hp₁ : s₁.strayWrite.pointer g = s₁.pointer g := by
    refine pointer_strayWrite_of_no_entries hconf.owned.toNoSharing hpos hlt ?_
    intro hind j
    rw [hconf.other g hg] at hind ⊢
    by_contra hentry
    exact hno ⟨b, g, hb, hg, hl, Or.inl ⟨hind, j, hentry⟩⟩
  have hp := hp₁.trans (hconf.other g hg)
  have hsize : (s₁.strayWrite.iNodes g).size = (s.iNodes g).size := by
    rw [iNodes_strayWrite, hconf.inode g hg]
  refine ⟨hsize, hp, hconf.descriptor g hg, ?_⟩
  intro junk junk'
  refine readFile_congr (hs.range g) (hs.backed_of_size hl) hsize hp
    ?_
  intro i hi hmax hne
  have hbp : s₁.blockPointer g (i / 1024) = s.blockPointer g (i / 1024) :=
    blockPointer_congr (hconf.other g hg) _
  rw [byteAt_strayWrite hconf.owned.toNoSharing hpos hp₁ (by rwa [hbp]), hbp]
  split
  · next hL =>
      by_contra hbyte
      exact hno ⟨b, g, hb, hg, hl, Or.inr ⟨i, hi, hmax, hL, fun h => hbyte h.symm⟩⟩
  · exact byteAt_congr (hconf.other g hg) (hconf.block g hg _ hne)

theorem strayWrite_affects (hs : Intact s) {b : Fin 1024} (hconf : Confined f s s₁)
    (hb : LastDirect s f b) (hpos : s₁.disk.pos = (b.val + 1) * 1024) (hlt : b.val + 1 < 1024)
    (hhit : HitsOther s f) : ¬ Unaffected f s s₁.strayWrite := by
  intro hun
  obtain ⟨c, g, hc, hg, hl, hlost⟩ := hhit
  rw [hc.unique hb] at hlost
  obtain ⟨hsize, hp, -, hread⟩ := hun g hg hl
  have hother := hconf.other g hg
  rcases hlost with ⟨hind, j, hentry⟩ | ⟨i, hi, hmax, hL, hbyte⟩
  · have hgone := pointer_strayWrite_entry hpos hlt (by rw [hother]; exact hind) j
    rw [hp] at hgone
    exact hentry hgone
  · have hback := hs.backed_of_size hl (by omega) hmax
    have hback' : Backed s₁.strayWrite g := by
      refine ⟨by omega, by omega, ?_⟩
      intro k hk
      rw [hsize] at hk
      rw [blockPointer_congr hp]
      exact hback.2.2 k hk
    have hns := strayWrite_noSharing hconf.owned.toNoSharing hpos
    have heq := hread (fun _ => 0) (fun _ => 0)
    rw [readFile_eq (hns.range g) hback', readFile_eq (hs.range g) hback] at heq
    have hlist := congrArg (fun l => l[i]?) (Except.ok.inj heq)
    rw [getElem?_contents (by omega), getElem?_contents hi, Option.some.injEq] at hlist
    have hbp : s₁.blockPointer g (i / 1024) = s.blockPointer g (i / 1024) :=
      blockPointer_congr hother _
    rw [byteAt_strayWrite hconf.owned.toNoSharing hpos (hp.trans hother.symm)
      (by rw [hbp, hL]; omega), hbp, if_pos hL] at hlist
    exact hbyte hlist.symm

/-! ## A call -/

/-- The write runs dry, and its stray write hits another live file. -/
def StrayHit (s : Sfs) (fd : Int) (buf : Mem) (count : Int) : Prop :=
  ∃ f, Accepts s fd buf count f ∧ RunsDry s f count ∧ HitsOther s f

theorem sfsFwrite_unaffected (hs : Intact s)
    (h : sfsFwrite junk (f : Nat) buf count s = .ok (ret, s'))
    (hno : ¬ StrayHit s (f : Nat) buf count) : Unaffected f s s' := by
  rcases sfsFwrite_confined_or_stray hs.toOwned h with
    ⟨rfl, -⟩ | ⟨g, ha, ⟨hconf, -⟩ | ⟨hdry, s₁, b, hconf, -, hb, hlt, hpos, rfl⟩⟩
  · exact ((Rereads.refl f s').confined hs.toOwned).unaffected hs
  · have hg : f = g := Option.some.inj ((slot?_natCast f).symm.trans ha.slot)
    exact hg ▸ hconf.unaffected hs
  · have hg : f = g := Option.some.inj ((slot?_natCast f).symm.trans ha.slot)
    subst hg
    exact strayWrite_unaffected hs hconf hb hpos hlt fun hhit => hno ⟨f, ha, hdry, hhit⟩

theorem sfsFwrite_affects (hs : Intact s)
    (h : sfsFwrite junk (f : Nat) buf count s = .ok (ret, s'))
    (hhit : StrayHit s (f : Nat) buf count) : ¬ Unaffected f s s' := by
  obtain ⟨g, ha, hdry, hother⟩ := hhit
  have hg : f = g := Option.some.inj ((slot?_natCast f).symm.trans ha.slot)
  subst hg
  rcases sfsFwrite_confined_or_stray hs.toOwned h with
    ⟨rfl, hno⟩ | ⟨g, ha', hout⟩
  · exact absurd ha (hno f)
  · have hg : f = g := Option.some.inj ((slot?_natCast f).symm.trans ha'.slot)
    subst hg
    rcases hout with ⟨-, hnot⟩ | ⟨-, s₁, b, hconf, -, hb, hlt, hpos, rfl⟩
    · exact absurd hdry hnot
    · exact strayWrite_affects hs hconf hb hpos hlt hother

/-- A write leaves the other files alone exactly when its stray write, if it
comes to one, hits none of them. -/
theorem sfsFwrite_frame (hs : Intact s)
    (h : sfsFwrite junk (f : Nat) buf count s = .ok (ret, s')) :
    Unaffected f s s' ↔ ¬ StrayHit s (f : Nat) buf count :=
  ⟨fun hun hhit => sfsFwrite_affects hs h hhit hun, sfsFwrite_unaffected hs h⟩

/-- Fifty letters within `A` leave `B` alone. -/
theorem sfsFwrite_frame_fullDisk :
    (fullDisk.setReadWritePointer 0 100).Live 1 ∧
    ∃ s', sfsFwrite (fun _ => 0) (0 : Fin 300) fiftyLetters.image 50
        (fullDisk.setReadWritePointer 0 100) = .ok (50, s') ∧
      Unaffected 0 (fullDisk.setReadWritePointer 0 100) s' := by
  have hw := (Rereads.move 0 fullDisk 100).wellFormed fullDisk_wellFormed
  obtain ⟨s', hwrite⟩ : ∃ s', sfsFwrite (fun _ => 0) ((0 : Fin 300) : Nat) fiftyLetters.image 50
      (fullDisk.setReadWritePointer 0 100) = .ok (50, s') :=
    fullDisk_write _ _ (by omega) (by omega) (by omega) (by rw [strnlen_fiftyLetters]; omega)
  refine ⟨by show (66 : Byte) ≠ 0; decide, s', hwrite, (sfsFwrite_frame hw.intact hwrite).mpr ?_⟩
  rintro ⟨f, ha, hdry, -⟩
  have hpast := hdry.past
  rw [ha.eq_of_natCast, fullDisk_blocksToWrite (by omega) (by omega) (by omega)] at hpast
  omega

/-! ## A write that runs dry -/

theorem fullDisk_intact : Intact fullDisk := fullDisk_wellFormed.intact

/-- One byte more for `A`, and `B` reads as ones. -/
theorem write_changes_other :
    ¬ ∀ (s : Sfs) (f : Fin 300) (junk buf : Mem) (count ret : Int) (s' : Sfs), Intact s →
      0 ≤ s.openFDTCache f → s.openFDTCache f ≤ (s.iNodes f).size → 0 ≤ count →
      s.openFDTCache f + count < 2147483648 →
      sfsFwrite junk (f : Nat) buf count s = .ok (ret, s') → Unaffected f s s' := by
  intro hall
  have hfdt : fullDisk.openFDTCache 0 = 12288 := rfl
  have hsize : (fullDisk.iNodes 0).size = 12288 := rfl
  obtain ⟨s', hwrite⟩ := fullDisk_write_fails fun _ => 0
  refine sfsFwrite_affects fullDisk_intact hwrite ?_
    (hall _ _ _ _ _ _ _ fullDisk_intact (by omega) (by omega) (by omega) (by omega) hwrite)
  have hdry : RunsDry fullDisk 0 1 :=
    { past := by rw [fullDisk_blocksToWrite_past]; decide
      indirect := fullDisk_indirect 0
      dry := by rw [fullDisk_freeBelow, fullDisk_missing (Nat.le_refl 12)] }
  refine ⟨0, ⟨by omega, slot?_natCast 0, by omega, by rw [strnlen_zeros]; omega⟩, hdry,
    29, 1, Or.inl (fullDisk_direct 0 11), by decide, by show (66 : Byte) ≠ 0; decide, Or.inr ⟨0, ?_⟩⟩
  have hnode : (fullDisk.iNodes 1).size = 1024 := rfl
  have hblock : fullDisk.blockPointer 1 (0 / 1024) = 30 := by
    refine (blockPointer_direct (s := fullDisk) (f := 1) 0).trans ?_
    rw [fullDisk_direct, if_neg (by decide), if_pos ⟨rfl, rfl⟩]
  refine ⟨by omega, by omega, hblock, ?_⟩
  show fullDisk.disk.block _ _ ≠ 255
  exact fun h => absurd (h : (0 : Byte) = 255) (by decide)

end OsConcepts.Sfs
