import OsConcepts.Proofs.SfsTurn

/-!
# Finding a block

`chooseBlock` against the cases of a turn. With the blocks it needs free it
comes back with one, and writing the piece of the buffer there completes a
`Turn` (`chooseBlock_done`). Without them, or past the last indirect pointer,
the loop stops, and `Stops` lists what it may have done by then.
-/

namespace OsConcepts.Sfs

open OsConcepts

variable {s s' : Sfs} {f g : Fin 300} {k : Nat} {l l' : WriteLocals} {junk chunk : Mem}

/-! ## Keeping the copies in step -/

theorem blockPointer_entry (j : Fin 256) : s.blockPointer f (12 + j) = s.pointer f (.entry j) := by
  have hj := j.isLt
  rw [blockPointer_eq (by omega), dataRef_entry (by omega) (by omega)]
  congr 2
  exact Fin.ext (by simp)

theorem blockPointer_direct (i : Fin 12) : s.blockPointer f i = s.pointer f (.direct i) := by
  have hi := i.isLt
  rw [blockPointer_eq (by omega), dataRef_direct hi]

theorem Turn.entry (h : Turn f k chunk s s') {j : Fin 256} (hj : 12 + j.val ≠ k) :
    s'.pointer f (.entry j) = s.pointer f (.entry j) := by
  rw [← blockPointer_entry, ← blockPointer_entry, h.same _ hj]

/-- A turn that finds its block in place leaves every entry. -/
theorem Turn.entry_of_old (h : Turn f k chunk s s') (hold : s.blockPointer f k ≠ -1)
    (j : Fin 256) : s'.pointer f (.entry j) = s.pointer f (.entry j) := by
  by_cases hj : 12 + j.val = k
  · rw [← blockPointer_entry, ← blockPointer_entry, hj]
    by_cases hk : k < 268
    · rw [blockPointer_eq hk] at hold ⊢
      rw [blockPointer_eq hk]
      exact h.ext.keeps _ hold
    · exact absurd (blockPointer_past (by omega)) hold
  · exact h.entry hj

theorem Turn.tracks (h : Turn f k chunk s s') (ht : Tracks f k l s)
    (hdirect : l'.iNodeOfFile.directPointers = l.iNodeOfFile.directPointers)
    (hind : l'.iNodeOfFile.indirectPointer = s'.pointer f .indirect)
    (hloaded : ∀ ib, l'.indirectBlock = some ib → s'.pointer f .indirect ≠ -1 ∧
      ∀ j, ib j = s'.pointer f (.entry j))
    (hpast : 12 ≤ k → s'.pointer f .indirect ≠ -1) : Tracks f (k + 1) l' s' where
  direct i hi := by
    rw [hdirect, ht.direct i (by omega), ← blockPointer_direct, ← blockPointer_direct,
      h.same i (by omega)]
  indirect := hind
  loaded := hloaded
  past hk := hpast (by omega)

/-- The copies as they are serve the next turn when the indirect pointer stays
and the turn has not filled in an entry. -/
theorem Turn.tracks_kept (h : Turn f k chunk s s') (ht : Tracks f k l s)
    (hind : s'.pointer f .indirect = s.pointer f .indirect)
    (hentry : ∀ j, s'.pointer f (.entry j) = s.pointer f (.entry j))
    (hpast : 12 ≤ k → s.pointer f .indirect ≠ -1) : Tracks f (k + 1) l s' := by
  refine h.tracks ht rfl (ht.indirect.trans hind.symm) (fun ib hib => ?_)
    fun hk => hind ▸ hpast hk
  obtain ⟨hne, hall⟩ := ht.loaded ib hib
  exact ⟨hind ▸ hne, fun j => (hall j).trans (hentry j).symm⟩

/-! ## Success -/

theorem need_pos (h : s.blockPointer f k = -1) : 1 ≤ s.need f k := by
  unfold need
  rw [if_pos h]
  omega

theorem find_of_freeBelow (h : 0 < s.freeBelow 1024) :
    ∃ i : Fin 1024, Fin.find? s.freeCell = some i := by
  obtain ⟨i, hi, -⟩ := FirstFit.find_of_freeBelow_pos h
  exact ⟨i, hi⟩

theorem createIndirect_some {a b : Fin 1024} (ha : Fin.find? s.freeCell = some a)
    (hb : Fin.find? ((s.take a).withIndirect f (a : Nat)).freeCell = some b) :
    createIndirect f l s = (((b : Nat) : Int),
      { l with iNodeOfFile := { l.iNodeOfFile with indirectPointer := ((a : Nat) : Int) } },
      (((s.take a).withIndirect f (a : Nat)).take b).writeBlocks (a : Nat) 1
        (IndirectBlock.image (Function.update (fun _ => -1) 0 (b : Nat)))) := by
  unfold withIndirect at *
  unfold createIndirect
  rw [allocateBlock_some ha]
  dsimp only
  rw [allocateBlock_some hb]

variable (junk) in
/-- With the blocks it needs free, the turn gets its block. -/
theorem chooseBlock_done (hs : Owned s) (ht : Tracks f k l s) (hk : k < 268)
    (hn : s.need f k ≤ s.freeBelow 1024) :
    ∃ (b : Fin 1024) (l' : WriteLocals) (s' : Sfs),
      chooseBlock junk f k l s = (some ((b : Nat) : Int), l', s') ∧
      ∀ chunk, Turn f k chunk s (s'.writeBlocks (b : Nat) 1 chunk) ∧
        Tracks f (k + 1) l' (s'.writeBlocks (b : Nat) 1 chunk) := by
  by_cases h12 : k < 12
  · have hcopy : l.iNodeOfFile.directPointers ⟨k, h12⟩ = s.pointer f (.direct ⟨k, h12⟩) :=
      ht.direct ⟨k, h12⟩ (Nat.le_refl _)
    have hbp : s.blockPointer f k = s.pointer f (.direct ⟨k, h12⟩) := by
      rw [blockPointer_eq hk, dataRef_direct h12]
    unfold chooseBlock
    rw [dif_pos h12]
    simp only [hcopy]
    by_cases hnew : s.pointer f (.direct ⟨k, h12⟩) = -1
    · have hneed := need_pos (hbp.trans hnew)
      obtain ⟨i, hi⟩ := find_of_freeBelow (s := s) (by omega)
      rw [if_pos (by omega)]
      simp only [allocateBlock_some hi, iNodes_take]
      refine ⟨i, _, _, rfl, ?_⟩
      intro chunk
      have hturn := turn_direct chunk hs h12 hi (hbp.trans hnew)
      refine ⟨hturn, hturn.tracks_kept ht (hturn.indirect (by omega)) (fun j => ?_) (by omega)⟩
      exact hturn.entry (by omega)
    · obtain ⟨b, hb, -⟩ := hs.nat_of_pointer hnew
      rw [if_neg (by omega)]
      simp only [hb]
      refine ⟨b, _, _, rfl, ?_⟩
      intro chunk
      have hturn := turn_old chunk hs hk s.disk.pos (hbp.trans hb)
      rw [seek_self] at hturn
      exact ⟨hturn, hturn.tracks_kept ht (hturn.indirect (by omega))
        (hturn.entry_of_old (by rw [hbp]; exact hnew)) (by omega)⟩
  · have hk256 : k - 12 < 256 := by omega
    have hbp : s.blockPointer f k = s.pointer f (.entry ⟨k - 12, hk256⟩) := by
      rw [blockPointer_eq hk, dataRef_entry (by omega) hk256]
    unfold chooseBlock
    rw [dif_neg h12]
    by_cases hind : s.pointer f .indirect = -1
    · -- The file gets its indirect block, so this is index 12.
      have hk12 : k = 12 := by
        by_contra hne
        exact ht.past (by omega) hind
      subst hk12
      have hnone : s.blockPointer f 12 = -1 := by
        have h : (s.iNodes f).indirectPointer = -1 := hind
        rw [hbp]
        simp only [pointer, h, if_true]
      have hneed : s.need f 12 = 2 := by
        unfold need
        rw [if_pos hnone, if_pos ⟨rfl, hind⟩]
      obtain ⟨a, ha⟩ := find_of_freeBelow (s := s) (by omega)
      have hcount : ((s.take a).withIndirect f (a : Nat)).freeBelow 1024 =
          s.freeBelow 1024 - 1 := by
        rw [← freeBelow_take ha]
        exact freeBelow_congr (by simp [withIndirect]) _
      obtain ⟨b, hb⟩ := find_of_freeBelow (s := (s.take a).withIndirect f (a : Nat)) (by omega)
      have hloaded : l.indirectBlock = none := by
        cases hl : l.indirectBlock with
        | none => rfl
        | some ib => exact absurd hind (ht.loaded ib hl).1
      rw [ht.indirect, if_pos (by omega), createIndirect_some ha hb]
      refine ⟨b, _, _, rfl, ?_⟩
      intro chunk
      have hturn := turn_create chunk hs hind ha hb
      have hind' : (((((s.take a).withIndirect f (a : Nat)).take b).writeBlocks
          (a : Nat) 1 (IndirectBlock.image (Function.update (fun _ => -1) 0 (b : Nat)))).writeBlocks
            (b : Nat) 1 chunk).pointer f .indirect = ((a : Nat) : Int) := by
        simp [pointer, withIndirect]
      refine ⟨hturn, hturn.tracks ht (by rfl) hind'.symm (fun ib hib => ?_) fun _ => ?_⟩
      · rw [hloaded] at hib
        cases hib
      · rw [hind']
        omega
    · obtain ⟨a, ha, -⟩ := hs.nat_of_pointer hind
      obtain ⟨ib, p, hload, hib⟩ := loadIndirectForWrite_eq junk hs.toNoSharing ht hind
      rw [ht.indirect, if_neg (by omega), hload]
      simp only [dif_pos hk256, hib]
      by_cases hnew : s.pointer f (.entry ⟨k - 12, hk256⟩) = -1
      · have hneed := need_pos (hbp.trans hnew)
        obtain ⟨i, hi⟩ := find_of_freeBelow (s := s) (by omega)
        have hi' : Fin.find? (s.seek p).freeCell = some i := by rw [freeCell_seek]; exact hi
        rw [if_pos (by omega)]
        simp only [allocateBlock_some hi', ht.indirect, ha]
        refine ⟨i, _, _, rfl, ?_⟩
        intro chunk
        obtain ⟨hturn, hentries⟩ :=
          turn_entry chunk hs (by omega) hk256 p ha hib hi (hbp.trans hnew)
        have hkept := hturn.ext.keeps _ hind
        have hind' := hind
        rw [← hkept] at hind'
        refine ⟨hturn, hturn.tracks ht (by rfl) (by rw [hkept, ← ht.indirect])
          (fun ib' hib' => ?_) fun _ => hind'⟩
        simp only [Option.some.injEq] at hib'
        subst hib'
        exact ⟨hind', hentries⟩
      · obtain ⟨b, hb, -⟩ := hs.nat_of_pointer hnew
        rw [if_neg (by omega)]
        simp only [hb]
        refine ⟨b, _, _, rfl, ?_⟩
        intro chunk
        have hturn := turn_old chunk hs hk p (hbp.trans hb)
        have hkept := hturn.ext.keeps _ hind
        have hind' := hind
        rw [← hkept] at hind'
        have hentry := hturn.entry_of_old (by rw [hbp]; exact hnew)
        refine ⟨hturn, hturn.tracks ht (by rfl) (by rw [hkept, ← ht.indirect])
          (fun ib' hib' => ?_) fun _ => hind'⟩
        simp only [Option.some.injEq] at hib'
        subst hib'
        exact ⟨hind', fun j => (hib j).trans (hentry j).symm⟩

/-! ## Failure -/

/-- The image of an indirect block without entries goes to address -1. -/
def strayWrite (s : Sfs) : Sfs := s.writeBlocks (-1) 1 (IndirectBlock.image fun _ => -1)

/-- What the loop of `sfs_fwrite` has done when it gives up at index `k`. Past
the last indirect pointer nothing. With too few blocks free, at most an
indirect block without entries has been taken, except when none was left for
it: then its image goes to address -1, and the disk puts it wherever the stream
stands. -/
inductive Stops (f : Fin 300) (k : Nat) (s : Sfs) : Sfs → Prop
  | past (p : Nat) : 268 ≤ k → Stops f k s (s.seek p)
  | full {s' : Sfs} : k < 268 → s.freeBelow 1024 < s.need f k →
      (k = 12 → s.pointer f .indirect = -1 → 0 < s.freeBelow 1024) → s'.freeBelow 1024 = 0 →
      Owned s' → Extends f s s' →
      (∀ j, s'.blockPointer f j = s.blockPointer f j) →
      (∀ c : Nat, c < 2000 → c ≠ 1023 → s'.pointer f .indirect ≠ c →
        s'.disk.block c = s.disk.block c) → Stops f k s s'
  | stray : k = 12 → s.pointer f .indirect = -1 → s.freeBelow 1024 = 0 →
      Stops f k s s.strayWrite

theorem setINode_eq_self (s : Sfs) (f : Fin 300) : s.setINode f (s.iNodes f) = s := by
  unfold setINode iNodes
  rw [Function.update_eq_self]

theorem find_none_of_freeBelow (h : s.freeBelow 1024 = 0) : Fin.find? s.freeCell = none :=
  FirstFit.find_eq_none_iff.mpr h

theorem int32Range_neg_one : Int32Range (-1) := ⟨by omega, by omega⟩

/-- A state that agrees with `s` on everything but the stream and the contents
of the file's own indirect block, which it rewrites as it was. -/
theorem stops_rewrite (hs : Owned s) (hk : k < 268) (hn : s.freeBelow 1024 < s.need f k)
    {a : Fin 1024} (p : Nat) {ib : IndirectBlock} (hind : s.pointer f .indirect = (a : Nat))
    (hib : ∀ j, ib j = s.pointer f (.entry j)) :
    Stops f k s ((s.seek p).writeBlocks (a : Nat) 1 (IndirectBlock.image ib)) := by
  have halt := a.isLt
  have hrange : ∀ j, Int32Range (ib j) := fun j => by rw [hib]; exact hs.int32Range _
  generalize hs' : (s.seek p).writeBlocks (a : Nat) 1 (IndirectBlock.image ib) = s'
  have hblock : ∀ c : Nat, c < 2000 → s'.disk.block c =
      if c = a then fun j : Fin 1024 => IndirectBlock.image ib j else s.disk.block c := by
    intro c hc
    subst hs'
    rw [block_writeBlock (by omega) hc, block_seek]
  have hnode : s'.iNodes f = s.iNodes f := by subst hs'; simp
  have hind' : s'.pointer f .indirect = (a : Nat) := by
    rw [← hind]
    simp only [pointer, hnode]
  have hpointer : ∀ r, s'.pointer f r = s.pointer f r := by
    intro r
    cases r with
    | direct i => simp only [pointer, hnode]
    | indirect => rw [hind', hind]
    | entry j =>
        rw [← hib j]
        refine pointer_entry_of_image j hind' ?_ hrange
        rw [hblock a (by omega), if_pos rfl]
  have hrest : ∀ c : Nat, c < 2000 → s'.pointer f .indirect ≠ c →
      s'.disk.block c = s.disk.block c := by
    intro c hc hne
    rw [hblock c hc, if_neg fun h => hne (by rw [hind', h])]
  have hassign : Assigns f (fun _ => none) s s' :=
    { inode_other := fun _ _ => by subst hs'; simp
      name := by subst hs'; simp
      size := by rw [hnode]
      linkCount := by rw [hnode]
      descriptors := by subst hs'; simp
      directory := by subst hs'; simp
      fresh := fun _ _ h => by cases h
      single := fun _ _ _ h => by cases h
      assigned := fun _ _ h => by cases h
      kept := fun r _ => hpointer r
      marks := fun c => by subst hs'; simp [ledger]
      frame := fun c hc _ hno => hrest c hc (hno _)
      synced := by
        intro h
        rw [hrest 1023 (by omega) fun h => ?_, h]
        · subst hs'; simp
        · exact hs.pointer_ne_1023 (hind.trans (hind'.symm.trans h))
      shrinks := fun c => Or.inl (by subst hs'; simp) }
  have hnone : s'.freeBelow 1024 = 0 := by
    have hneed : s.need f k ≤ 1 := by
      unfold need
      rw [hind]
      split <;> split <;> omega
    have hsame : s'.freeBelow 1024 = s.freeBelow 1024 := freeBelow_congr (by subst hs'; simp) _
    omega
  exact .full hk hn (fun _ h => by omega) hnone (hassign.owned hs) (hassign.extends hs)
    (blockPointer_congr (funext hpointer)) fun c hc _ hne => hrest c hc hne

/-- An indirect block is taken, and no block is left for its first entry. -/
theorem stops_indirect (hs : Owned s) (hn : s.freeBelow 1024 < s.need f 12) {a : Fin 1024}
    (hind : s.pointer f .indirect = -1) (ha : Fin.find? s.freeCell = some a) :
    Stops f 12 s (((s.take a).withIndirect f (a : Nat)).writeBlocks (a : Nat) 1
      (IndirectBlock.image fun _ => -1)) := by
  obtain ⟨hafree, ha1023, -⟩ := hs.of_find ha
  have halt := a.isLt
  generalize hs' : ((s.take a).withIndirect f (a : Nat)).writeBlocks (a : Nat) 1
    (IndirectBlock.image fun _ => -1) = s'
  have hblock : ∀ c : Nat, c < 2000 → s'.disk.block c =
      if c = a then fun j : Fin 1024 => IndirectBlock.image (fun _ => -1) j
      else if c = 1023 then s'.freeBlockListCache else s.disk.block c := by
    intro c hc
    subst hs'
    rw [block_writeBlock (by omega) hc, withIndirect, disk_setINode, block_take hc]
    simp
  have hnode : s'.iNodes f = { s.iNodes f with indirectPointer := (a : Nat) } := by
    subst hs'
    simp [withIndirect]
  have hind' : s'.pointer f .indirect = (a : Nat) := by simp only [pointer, hnode]
  have hentry : ∀ j, s'.pointer f (.entry j) = -1 := by
    intro j
    have hrange : ∀ j : Fin 256, Int32Range ((fun _ => -1 : IndirectBlock) j) :=
      fun _ => int32Range_neg_one
    refine pointer_entry_of_image j hind' ?_ hrange
    rw [hblock a (by omega), if_pos rfl]
  have hold : ∀ j, s.pointer f (.entry j) = -1 := by
    intro j
    have h : (s.iNodes f).indirectPointer = -1 := hind
    simp only [pointer, h, if_true]
  have hkept : ∀ r, r ≠ .indirect → s'.pointer f r = s.pointer f r := by
    intro r hr
    cases r with
    | direct i => simp only [pointer, hnode]
    | indirect => exact absurd rfl hr
    | entry j => rw [hentry, hold]
  have hrest : ∀ c : Nat, c < 2000 → c ≠ 1023 → s'.pointer f .indirect ≠ c →
      s'.disk.block c = s.disk.block c := by
    intro c hc hc' hne
    rw [hblock c hc, if_neg fun h => hne (by rw [hind', h]), if_neg hc']
  have hassign : Assigns f (fun r => if r = .indirect then some a else none) s s' :=
    { inode_other := fun g hg => by subst hs'; simp [withIndirect, hg]
      name := by subst hs'; rfl
      size := by rw [hnode]
      linkCount := by rw [hnode]
      descriptors := by subst hs'; simp [withIndirect]
      directory := by subst hs'; simp [withIndirect]
      fresh := by
        intro r b h
        simp only [Option.ite_none_right_eq_some, Option.some.injEq] at h
        obtain ⟨rfl, rfl⟩ := h
        exact ⟨hind, hafree⟩
      single := by
        intro r r' b h h'
        simp only [Option.ite_none_right_eq_some] at h h'
        exact h.1.trans h'.1.symm
      assigned := by
        intro r b h
        simp only [Option.ite_none_right_eq_some, Option.some.injEq] at h
        obtain ⟨rfl, rfl⟩ := h
        exact hind'
      kept := fun r h => hkept r fun hr => by simp [hr] at h
      marks := by
        intro b
        subst hs'
        by_cases hb : b = a <;> simp [ledger, withIndirect, hb]
        exact fun h => absurd h.symm hb
      frame := fun c hc hc' hno => hrest c hc hc' (hno _)
      synced := by
        intro _
        rw [hblock 1023 (by omega), if_neg (by omega), if_pos rfl]
      shrinks := by
        intro c
        subst hs'
        by_cases hc : c = a <;> simp [withIndirect, hc] }
  have hone : 0 < s.freeBelow 1024 := by
    refine Nat.pos_of_ne_zero ?_
    intro hzero
    rw [find_none_of_freeBelow hzero] at ha
    cases ha
  have hnone : s'.freeBelow 1024 = 0 := by
    have hneed : s.need f 12 ≤ 2 := by
      unfold need
      split <;> split <;> omega
    have hsame : s'.freeBelow 1024 = (s.take a).freeBelow 1024 :=
      freeBelow_congr (by subst hs'; simp [withIndirect]) _
    have htake := freeBelow_take ha 1024
    omega
  refine .full (by omega) hn (fun _ _ => hone) hnone (hassign.owned hs) (hassign.extends hs)
    (fun j => ?_) hrest
  by_cases hj : j < 268
  · rw [blockPointer_eq hj, blockPointer_eq hj, hkept _ (dataRef_ne_indirect hj)]
  · rw [blockPointer_past (by omega), blockPointer_past (by omega)]

theorem createIndirect_none (hind : s.pointer f .indirect = -1)
    (ha : Fin.find? s.freeCell = none) :
    ∃ l', createIndirect f l s = (-1, l', s.strayWrite) := by
  have hnode : { s.iNodes f with indirectPointer := -1 } = s.iNodes f := by
    have h : (s.iNodes f).indirectPointer = -1 := hind
    rw [← h]
  unfold createIndirect strayWrite
  rw [allocateBlock_none ha]
  dsimp only
  rw [hnode, setINode_eq_self, allocateBlock_none ha]
  exact ⟨_, by rw [show (Function.update (fun _ => -1) 0 (-1) : IndirectBlock) = fun _ => -1 from
    Function.update_eq_self (f := fun _ : Fin 256 => (-1 : Int)) 0]⟩

theorem createIndirect_one {a : Fin 1024} (ha : Fin.find? s.freeCell = some a)
    (hb : Fin.find? ((s.take a).withIndirect f (a : Nat)).freeCell = none) :
    ∃ l', createIndirect f l s = (-1, l',
      ((s.take a).withIndirect f (a : Nat)).writeBlocks (a : Nat) 1
        (IndirectBlock.image fun _ => -1)) := by
  unfold withIndirect at *
  unfold createIndirect
  rw [allocateBlock_some ha]
  dsimp only
  rw [allocateBlock_none hb]
  exact ⟨_, by rw [show (Function.update (fun _ => -1) 0 (-1) : IndirectBlock) = fun _ => -1 from
    Function.update_eq_self (f := fun _ : Fin 256 => (-1 : Int)) 0]⟩

variable (junk) in
/-- Past the last pointer, or without the blocks it needs, the loop stops. -/
theorem chooseBlock_stop (hs : Owned s) (ht : Tracks f k l s)
    (hn : 268 ≤ k ∨ s.freeBelow 1024 < s.need f k) :
    ∃ o l' s', chooseBlock junk f k l s = (o, l', s') ∧ (o = none ∨ o = some (-1)) ∧
      Stops f k s s' := by
  by_cases hk : 268 ≤ k
  · have hind := ht.past (by omega)
    obtain ⟨a, ha, -⟩ := hs.nat_of_pointer hind
    obtain ⟨ib, p, hload, -⟩ := loadIndirectForWrite_eq junk hs.toNoSharing ht hind
    unfold chooseBlock
    rw [dif_neg (by omega), ht.indirect, if_neg (by omega), hload]
    dsimp only
    rw [dif_neg (by omega)]
    exact ⟨none, _, _, rfl, Or.inl rfl, .past p hk⟩
  · have hn := hn.resolve_left hk
    by_cases h12 : k < 12
    · have hbp : s.blockPointer f k = s.pointer f (.direct ⟨k, h12⟩) := by
        rw [blockPointer_eq (by omega), dataRef_direct h12]
      have hnew : s.pointer f (.direct ⟨k, h12⟩) = -1 := by
        by_contra hne
        unfold need at hn
        rw [if_neg (by rw [hbp]; exact hne), if_neg (by omega)] at hn
        omega
      have hneed : s.need f k = 1 := by
        unfold need
        rw [if_pos (hbp.trans hnew), if_neg (by omega)]
      have hnode : (s.iNodes f).setDirectPointer ⟨k, h12⟩ (-1) = s.iNodes f := by
        have h : (s.iNodes f).directPointers ⟨k, h12⟩ = -1 := hnew
        unfold INode.setDirectPointer
        rw [← h, Function.update_eq_self]
      unfold chooseBlock
      rw [dif_pos h12]
      dsimp only
      rw [ht.direct ⟨k, h12⟩ (Nat.le_refl _), hnew, if_pos (by omega),
        allocateBlock_none (find_none_of_freeBelow (by omega))]
      dsimp only
      rw [hnode, setINode_eq_self]
      exact ⟨_, _, _, rfl, Or.inr rfl, .full (by omega) (by omega) (fun h => by omega)
        (by omega) hs
        (.refl hs.toNoSharing) (fun _ => rfl) fun _ _ _ _ => rfl⟩
    · have hk256 : k - 12 < 256 := by omega
      have hbp : s.blockPointer f k = s.pointer f (.entry ⟨k - 12, hk256⟩) := by
        rw [blockPointer_eq (by omega), dataRef_entry (by omega) hk256]
      by_cases hind : s.pointer f .indirect = -1
      · have hk12 : k = 12 := by
          by_contra hne
          exact ht.past (by omega) hind
        subst hk12
        unfold chooseBlock
        rw [dif_neg h12, ht.indirect, if_pos (by omega)]
        cases ha : Fin.find? s.freeCell with
        | none =>
            obtain ⟨l', hl'⟩ := createIndirect_none (l := l) hind ha
            rw [hl']
            exact ⟨_, _, _, rfl, Or.inr rfl,
              .stray rfl hind (FirstFit.find_eq_none_iff.mp ha)⟩
        | some a =>
            have hneed : s.need f 12 ≤ 2 := by
              unfold need
              split <;> split <;> omega
            have hb : Fin.find? ((s.take a).withIndirect f (a : Nat)).freeCell = none := by
              refine find_none_of_freeBelow ?_
              have h1 : ((s.take a).withIndirect f (a : Nat)).freeBelow 1024 =
                  (s.take a).freeBelow 1024 := freeBelow_congr (by simp [withIndirect]) _
              have h2 := freeBelow_take ha 1024
              omega
            obtain ⟨l', hl'⟩ := createIndirect_one (l := l) ha hb
            rw [hl']
            exact ⟨_, _, _, rfl, Or.inr rfl, stops_indirect hs hn hind ha⟩
      · obtain ⟨a, ha, -⟩ := hs.nat_of_pointer hind
        obtain ⟨ib, p, hload, hib⟩ := loadIndirectForWrite_eq junk hs.toNoSharing ht hind
        have hnew : s.pointer f (.entry ⟨k - 12, hk256⟩) = -1 := by
          by_contra hne
          unfold need at hn
          rw [if_neg (by rw [hbp]; exact hne), if_neg (fun h => hind h.2)] at hn
          omega
        have hneed : s.need f k = 1 := by
          unfold need
          rw [if_pos (hbp.trans hnew), if_neg (fun h => hind h.2)]
        have hib' : Function.update ib ⟨k - 12, hk256⟩ (-1) = ib := by
          rw [← hnew, ← hib, Function.update_eq_self]
        unfold chooseBlock
        rw [dif_neg h12, ht.indirect, if_neg (by omega), hload]
        dsimp only
        rw [dif_pos hk256, hib, hnew, if_pos (by omega),
          allocateBlock_none (by rw [freeCell_seek]; exact find_none_of_freeBelow (by omega))]
        dsimp only
        rw [hib', ht.indirect, ha]
        exact ⟨_, _, _, rfl, Or.inr rfl, stops_rewrite hs (by omega) (by omega) p ha hib⟩

end OsConcepts.Sfs
