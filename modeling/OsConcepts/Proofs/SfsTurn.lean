import OsConcepts.Proofs.SfsAssign

/-!
# One turn of the write loop

A turn finds or allocates the block for one block index and writes a piece of
the buffer to it. The loop works from a copy of the i-node it took on entry
while it updates the cached one, and keeps a copy of the indirect block besides
the one on disk; `Tracks` says how far the copies can be trusted.

`need` counts what the turn has to allocate: a block if the file has none at
the index, and the indirect block itself the first time one is wanted. With
that many blocks free a turn succeeds (`chooseBlock_done`) and uses up exactly
those; `Turn` is what it has then done.
-/

namespace OsConcepts.Sfs

open OsConcepts

variable {s s' : Sfs} {f g : Fin 300} {k : Nat} {l : WriteLocals} {junk chunk : Mem}

/-! ## Block indexes as references -/

/-- The reference that names block `k` of a file. -/
def dataRef (k : Nat) (h : k < 268) : Ref :=
  if h' : k < 12 then .direct ⟨k, h'⟩ else .entry ⟨k - 12, by omega⟩

theorem blockPointer_eq (h : k < 268) : s.blockPointer f k = s.pointer f (dataRef k h) := by
  unfold blockPointer dataRef
  split
  · rfl
  · rw [dif_pos (by omega)]

theorem blockPointer_past (h : 268 ≤ k) : s.blockPointer f k = -1 := by
  unfold blockPointer
  rw [dif_neg (by omega), dif_neg (by omega)]

theorem dataRef_injective {j : Nat} {h : k < 268} {h' : j < 268}
    (heq : dataRef k h = dataRef j h') : k = j := by
  unfold dataRef at heq
  split at heq <;> split at heq
  · simpa using heq
  · cases heq
  · cases heq
  · simp only [Ref.entry.injEq, Fin.mk.injEq] at heq
    omega

theorem dataRef_ne_indirect (h : k < 268) : dataRef k h ≠ .indirect := by
  unfold dataRef
  split <;> simp

theorem dataRef_direct (h : k < 12) : dataRef k (by omega) = .direct ⟨k, h⟩ := dif_pos h

theorem dataRef_entry (h : 12 ≤ k) (h' : k - 12 < 256) :
    dataRef k (by omega) = .entry ⟨k - 12, h'⟩ := dif_neg (by omega)

/-- Distinct block indexes of distinct files hold distinct blocks. -/
theorem NoSharing.eq_of_blockPointer_eq (h : NoSharing s) {j : Nat}
    (heq : s.blockPointer f k = s.blockPointer g j) (hne : s.blockPointer f k ≠ -1) :
    f = g ∧ k = j := by
  have hk : k < 268 := by
    by_contra hk
    exact hne (blockPointer_past (by omega))
  have hj : j < 268 := by
    by_contra hj
    exact hne (heq.trans (blockPointer_past (by omega)))
  rw [blockPointer_eq hk, blockPointer_eq hj] at heq
  rw [blockPointer_eq hk] at hne
  obtain ⟨hfg, href⟩ := Prod.mk.inj (h.eq_of_pointer_eq heq hne)
  exact ⟨hfg, dataRef_injective href⟩

/-- How many blocks the turn for index `k` allocates. -/
def need (s : Sfs) (f : Fin 300) (k : Nat) : Nat :=
  (if s.blockPointer f k = -1 then 1 else 0) +
    if k = 12 ∧ s.pointer f .indirect = -1 then 1 else 0

/-! ## The copies -/

/-- At index `k` the copy of the i-node still agrees with the cached one where
it will be read, a loaded indirect block agrees with the one on disk, and past
index 12 there is an indirect block. -/
structure Tracks (f : Fin 300) (k : Nat) (l : WriteLocals) (s : Sfs) : Prop where
  direct : ∀ i : Fin 12, k ≤ i → l.iNodeOfFile.directPointers i = s.pointer f (.direct i)
  indirect : l.iNodeOfFile.indirectPointer = s.pointer f .indirect
  loaded : ∀ ib, l.indirectBlock = some ib →
    s.pointer f .indirect ≠ -1 ∧ ∀ j, ib j = s.pointer f (.entry j)
  past : 12 < k → s.pointer f .indirect ≠ -1

theorem Tracks.start (s : Sfs) (f : Fin 300) : Tracks f 0 ⟨s.iNodes f, none⟩ s where
  direct _ _ := rfl
  indirect := rfl
  loaded _ h := by cases h
  past h := by omega

/-- What a turn that found its block has done. -/
structure Turn (f : Fin 300) (k : Nat) (chunk : Mem) (s s' : Sfs) : Prop where
  owned : Owned s'
  ext : Extends f s s'
  there : s'.blockPointer f k ≠ -1
  content : s'.disk.block (s'.blockPointer f k).toNat = fun j : Fin 1024 => chunk j
  rest : ∀ c : Nat, c < 2000 → c ≠ 1023 → s'.blockPointer f k ≠ c →
    s'.pointer f .indirect ≠ c → s'.disk.block c = s.disk.block c
  same : ∀ j, j ≠ k → s'.blockPointer f j = s.blockPointer f j
  indirect : k ≠ 12 → s'.pointer f .indirect = s.pointer f .indirect
  count : ∀ m, s'.freeBelow m = s.freeBelow m - s.need f k
  stream : s'.disk.pos = ((s'.blockPointer f k).toNat + 1) * 1024

/-- The state with the stream moved. -/
def seek (s : Sfs) (p : Nat) : Sfs := { s with disk := s.disk.moveTo p }

theorem seek_self (s : Sfs) : s.seek s.disk.pos = s := (rfl)

@[simp] theorem pointer_seek (s : Sfs) (p : Nat) : (s.seek p).pointer f = s.pointer f := (rfl)

@[simp] theorem iNodes_seek (s : Sfs) (p : Nat) : (s.seek p).iNodes f = s.iNodes f := (rfl)

@[simp] theorem block_seek (s : Sfs) (p c : Nat) :
    (s.seek p).disk.block c = s.disk.block c := (rfl)

@[simp] theorem iNodesTableCache_seek (s : Sfs) (p : Nat) :
    (s.seek p).iNodesTableCache = s.iNodesTableCache := (rfl)

@[simp] theorem freeBlockListCache_seek (s : Sfs) (p : Nat) :
    (s.seek p).freeBlockListCache = s.freeBlockListCache := (rfl)

@[simp] theorem openFDTCache_seek (s : Sfs) (p : Nat) :
    (s.seek p).openFDTCache = s.openFDTCache := (rfl)

@[simp] theorem rootDirectoryCache_seek (s : Sfs) (p : Nat) :
    (s.seek p).rootDirectoryCache = s.rootDirectoryCache := (rfl)

@[simp] theorem freeCell_seek (s : Sfs) (p : Nat) : (s.seek p).freeCell = s.freeCell := (rfl)

variable (junk) in
/-- The indirect block, loaded or remembered, holds the entries of the file. -/
theorem loadIndirectForWrite_eq (hs : NoSharing s) (ht : Tracks f k l s)
    (hind : s.pointer f .indirect ≠ -1) :
    ∃ ib p, loadIndirectForWrite junk l s =
        (ib, { l with indirectBlock := some ib }, s.seek p) ∧
      ∀ j, ib j = s.pointer f (.entry j) := by
  obtain ⟨a, ha, -⟩ := hs.nat_of_pointer hind
  have halt := a.isLt
  cases hl : l.indirectBlock with
  | some ib =>
      refine ⟨ib, s.disk.pos, ?_, (ht.loaded ib hl).2⟩
      simp only [loadIndirectForWrite, hl]
      rw [← hl]
      rfl
  | none =>
      have hentry : ∀ j, s.indirectBlockAt (a : Nat) j = s.pointer f (.entry j) := by
        intro j
        have hne : ¬ (s.iNodes f).indirectPointer = -1 := hind
        have ha' : (s.iNodes f).indirectPointer = (a : Nat) := ha
        simp only [pointer]
        rw [if_neg hne, ha']
      refine ⟨s.indirectBlockAt (a : Nat), (a + 1) * 1024, ?_, hentry⟩
      simp only [loadIndirectForWrite, hl]
      rw [ht.indirect, ha, readBlocks_eq s (by omega), ofImage_memcpy_block]
      rfl

/-! ## The four cases -/

/-- An assignment that writes the piece of the buffer is a turn. -/
theorem Assigns.turn {new : Ref → Option (Fin 1024)} (h : Assigns f new s s') (hs : Owned s)
    (hk : k < 268) {b : Fin 1024} (hb : s'.pointer f (dataRef k hk) = (b : Nat))
    (hcontent : s'.disk.block b = fun j : Fin 1024 => chunk j)
    (hrest : ∀ c : Nat, c < 2000 → c ≠ 1023 → c ≠ b → s'.pointer f .indirect ≠ c →
      s'.disk.block c = s.disk.block c)
    (hnew : ∀ r, r ≠ dataRef k hk → (k = 12 → r ≠ .indirect) → new r = none)
    (hcount : ∀ m, s'.freeBelow m = s.freeBelow m - s.need f k)
    (hstream : s'.disk.pos = (b.val + 1) * 1024) : Turn f k chunk s s' where
  owned := h.owned hs
  ext := h.extends hs
  there := by rw [blockPointer_eq hk, hb]; omega
  content := by rw [blockPointer_eq hk, hb, Int.toNat_natCast, hcontent]
  rest c hc hc' hne hind := by
    rw [blockPointer_eq hk, hb] at hne
    exact hrest c hc hc' (fun hcb => hne (by rw [hcb])) hind
  same j hj := by
    by_cases hlt : j < 268
    · rw [blockPointer_eq hlt, blockPointer_eq hlt]
      refine h.kept _ (hnew _ (fun heq => hj (dataRef_injective heq)) fun _ => ?_)
      exact dataRef_ne_indirect hlt
    · rw [blockPointer_past (by omega), blockPointer_past (by omega)]
  indirect h12 := h.kept _ (hnew _ (dataRef_ne_indirect hk).symm fun h => absurd h h12)
  count := hcount
  stream := by rw [blockPointer_eq hk, hb, Int.toNat_natCast, hstream]

/-- A file's pointers stay when its i-node does and its indirect block is
neither the free list's block nor otherwise written. -/
theorem Owned.pointer_of_block (hs : Owned s) (hn : s'.iNodes f = s.iNodes f)
    (hb : ∀ c : Fin 1024, s.pointer f .indirect = (c : Nat) → c.val ≠ 1023 →
      s'.disk.block c = s.disk.block c) : s'.pointer f = s.pointer f := by
  refine pointer_congr (by rw [hn]) (by rw [hn]) ?_
  intro hne
  obtain ⟨c, hc, -⟩ := hs.nat_of_pointer hne
  rw [hc, Int.toNat_natCast]
  exact hb c hc fun h => hs.pointer_ne_1023 (hc.trans (by rw [h]))

variable (chunk) in
/-- The file has a block at the index. -/
theorem turn_old (hs : Owned s) (hk : k < 268) {b : Fin 1024} (p : Nat)
    (hb : s.blockPointer f k = (b : Nat)) :
    Turn f k chunk s ((s.seek p).writeBlocks (b : Nat) 1 chunk) := by
  have hlt := b.isLt
  rw [blockPointer_eq hk] at hb
  have hblock : ∀ c : Nat, c < 2000 → ((s.seek p).writeBlocks (b : Nat) 1 chunk).disk.block c =
      if c = b then fun j : Fin 1024 => chunk j else s.disk.block c :=
    fun c hc => block_writeBlock (by omega) hc
  have hpointer : ((s.seek p).writeBlocks (b : Nat) 1 chunk).pointer f = s.pointer f := by
    refine hs.pointer_of_block (by simp) ?_
    intro c hc _
    have hclt := c.isLt
    rw [hblock c (by omega), if_neg]
    intro hcb
    have heq : s.pointer f (dataRef k hk) = s.pointer f .indirect := hb.trans (by rw [hc, hcb])
    exact dataRef_ne_indirect hk (congrArg Prod.snd (hs.eq_of_pointer_eq heq (by omega)))
  have hrest : ∀ c : Nat, c < 2000 → c ≠ b →
      ((s.seek p).writeBlocks (b : Nat) 1 chunk).disk.block c = s.disk.block c := by
    intro c hc hne
    rw [hblock c hc, if_neg hne]
  have hassign : Assigns f (fun _ => none) s ((s.seek p).writeBlocks (b : Nat) 1 chunk) :=
    { inode_other := fun _ _ => by simp
      name := by simp
      size := by simp
      linkCount := by simp
      descriptors := by simp
      directory := by simp
      fresh := fun _ _ h => by cases h
      single := fun _ _ _ h => by cases h
      assigned := fun _ _ h => by cases h
      kept := fun r _ => congrFun hpointer r
      marks := fun c => by simp [ledger]
      frame := fun c hc _ hno => hrest c hc fun hcb =>
        hno (dataRef k hk) (by rw [hpointer, hb, hcb])
      synced := by
        intro h
        rw [hrest 1023 (by omega) fun h => hs.pointer_ne_1023 (hb.trans (by rw [← h])), h]
        simp
      shrinks := fun c => Or.inl (by simp) }
  have hneed : s.need f k = 0 := by
    unfold need
    rw [blockPointer_eq hk, hb, if_neg (by omega)]
    by_cases h12 : k = 12 ∧ s.pointer f .indirect = -1
    · obtain ⟨rfl, hind⟩ := h12
      rw [dataRef_entry (by omega) (by omega)] at hb
      have hind' : (s.iNodes f).indirectPointer = -1 := hind
      simp only [pointer, hind', if_true] at hb
      omega
    · rw [if_neg h12]
  refine hassign.turn hs hk (b := b) ?_ ?_ (fun c hc _ hne _ => hrest c hc hne)
    (fun _ _ _ => rfl) (fun m => ?_) (pos_writeBlock (by omega))
  · rw [hpointer, hb]
  · rw [hblock b (by omega), if_pos rfl]
  · rw [hneed, Nat.sub_zero]
    exact freeBelow_congr (by simp) m

/-- What `allocateBlock` finds is neither in use nor set aside. -/
theorem Owned.of_find (hs : Owned s) {i : Fin 1024} (hi : Fin.find? s.freeCell = some i) :
    ¬ s.ledger.busy i ∧ i.val ≠ 1023 ∧ ∀ g r, s.pointer g r ≠ (i : Nat) :=
  ⟨free_of_find hi, fun h => hs.free_not_reserved (free_of_find hi) (Or.inr h),
    fun _ _ => hs.ne_of_not_busy (free_of_find hi)⟩

variable (chunk) in
/-- A direct pointer gets a new block. -/
theorem turn_direct (hs : Owned s) (hk : k < 12) {i : Fin 1024}
    (hi : Fin.find? s.freeCell = some i) (hnone : s.blockPointer f k = -1) :
    Turn f k chunk s
      (((s.take i).setINode f ((s.iNodes f).setDirectPointer ⟨k, hk⟩ (i : Nat))).writeBlocks
        (i : Nat) 1 chunk) := by
  obtain ⟨hfree, hi1023, hunused⟩ := hs.of_find hi
  have hlt := i.isLt
  generalize hs' : ((s.take i).setINode f
    ((s.iNodes f).setDirectPointer ⟨k, hk⟩ (i : Nat))).writeBlocks (i : Nat) 1 chunk = s'
  have hblock : ∀ c : Nat, c < 2000 → s'.disk.block c =
      if c = i then fun j : Fin 1024 => chunk j
      else if c = 1023 then s'.freeBlockListCache else s.disk.block c := by
    intro c hc
    subst hs'
    rw [block_writeBlock (by omega) hc, disk_setINode, block_take hc]
    simp
  have hnode : s'.iNodes f = (s.iNodes f).setDirectPointer ⟨k, hk⟩ (i : Nat) := by
    subst hs'
    simp
  have hrest : ∀ c : Nat, c < 2000 → c ≠ 1023 → c ≠ i → s'.disk.block c = s.disk.block c := by
    intro c hc hc' hci
    rw [hblock c hc, if_neg hci, if_neg hc']
  have hind : s'.pointer f .indirect = s.pointer f .indirect := by
    simp only [pointer, hnode, INode.setDirectPointer]
  have hassigned : s'.pointer f (.direct ⟨k, hk⟩) = (i : Nat) := by
    simp only [pointer, hnode, INode.setDirectPointer, Function.update_self]
  have hkept : ∀ r, r ≠ .direct ⟨k, hk⟩ → s'.pointer f r = s.pointer f r := by
    intro r hr
    cases r with
    | direct j =>
        have hj : j ≠ ⟨k, hk⟩ := fun h => hr (by rw [h])
        simp only [pointer, hnode, INode.setDirectPointer, Function.update_of_ne hj]
    | indirect => exact hind
    | entry j =>
        refine pointer_entry_congr hind ?_
        intro hne
        obtain ⟨c, hc, -⟩ := hs.nat_of_pointer hne
        have hclt := c.isLt
        rw [hc, Int.toNat_natCast]
        refine hrest c (by omega) (fun h => hs.pointer_ne_1023 (hc.trans (by rw [h]))) ?_
        exact fun h => hunused f .indirect (hc.trans (by rw [h]))
  have hassign : Assigns f (fun r => if r = .direct ⟨k, hk⟩ then some i else none) s s' :=
    { inode_other := fun g hg => by subst hs'; simp [hg]
      name := by subst hs'; rfl
      size := by rw [hnode]; rfl
      linkCount := by rw [hnode]; rfl
      descriptors := by subst hs'; simp
      directory := by subst hs'; simp
      fresh := by
        intro r b h
        simp only [Option.ite_none_right_eq_some, Option.some.injEq] at h
        obtain ⟨rfl, rfl⟩ := h
        rw [blockPointer_eq (by omega), dataRef_direct hk] at hnone
        exact ⟨hnone, hfree⟩
      single := by
        intro r r' b h h'
        simp only [Option.ite_none_right_eq_some] at h h'
        exact h.1.trans h'.1.symm
      assigned := by
        intro r b h
        simp only [Option.ite_none_right_eq_some, Option.some.injEq] at h
        obtain ⟨rfl, rfl⟩ := h
        exact hassigned
      kept := fun r h => hkept r fun hr => by simp [hr] at h
      marks := by
        intro b
        subst hs'
        by_cases hb : b = i <;> simp [ledger, hb]
        exact fun h => absurd h.symm hb
      frame := fun c hc hc' hno => hrest c hc hc' fun h => hno _ (by rw [hassigned, h])
      synced := by
        intro _
        rw [hblock 1023 (by omega), if_neg (by omega), if_pos rfl]
      shrinks := by
        intro c
        subst hs'
        by_cases hc : c = i <;> simp [hc] }
  have hneed : s.need f k = 1 := by
    unfold need
    rw [hnone, if_pos rfl, if_neg (by omega)]
  refine hassign.turn hs (by omega) (b := i) ?_ ?_ (fun c hc hc' hne _ => hrest c hc hc' hne)
    (fun r hr _ => if_neg (by rwa [dataRef_direct hk] at hr)) (fun m => ?_) ?_
  · rw [dataRef_direct hk, hassigned]
  · rw [hblock i (by omega), if_pos rfl]
  · rw [hneed, ← freeBelow_take hi m]
    exact freeBelow_congr (by subst hs'; simp) m
  · subst hs'
    exact pos_writeBlock (by omega)

theorem NoSharing.int32Range (h : NoSharing s) (r : Ref) : Int32Range (s.pointer f r) := by
  rcases h.range f r with h | h <;> constructor <;> omega

theorem int32Range_block (b : Fin 1024) : Int32Range (b : Nat) := by
  have := b.isLt
  constructor <;> omega

variable (chunk) in
/-- An entry of the indirect block gets a new block. -/
theorem turn_entry (hs : Owned s) (hk : 12 ≤ k) (hk' : k - 12 < 256) {a i : Fin 1024} (p : Nat)
    {ib : IndirectBlock} (hind : s.pointer f .indirect = (a : Nat))
    (hib : ∀ j, ib j = s.pointer f (.entry j)) (hi : Fin.find? s.freeCell = some i)
    (hnone : s.blockPointer f k = -1) :
    Turn f k chunk s
      (((((s.seek p).take i).writeBlocks (a : Nat) 1
        (IndirectBlock.image (Function.update ib ⟨k - 12, hk'⟩ (i : Nat)))).writeBlocks
          (i : Nat) 1 chunk)) ∧
    ∀ j, Function.update ib ⟨k - 12, hk'⟩ ((i : Nat) : Int) j =
      (((((s.seek p).take i).writeBlocks (a : Nat) 1
        (IndirectBlock.image (Function.update ib ⟨k - 12, hk'⟩ (i : Nat)))).writeBlocks
          (i : Nat) 1 chunk)).pointer f (.entry j) := by
  obtain ⟨hfree, hi1023, hunused⟩ := hs.of_find hi
  have hlt := i.isLt
  have halt := a.isLt
  have hai : a.val ≠ i := fun h => hunused f .indirect (by rw [hind, h])
  have ha1023 : a.val ≠ 1023 := fun h => hs.pointer_ne_1023 (hind.trans (by rw [h]))
  generalize hib' : Function.update ib ⟨k - 12, hk'⟩ ((i : Nat) : Int) = ib'
  have hib'_self : ib' ⟨k - 12, hk'⟩ = (i : Nat) := by rw [← hib', Function.update_self]
  have hib'_other : ∀ j, j ≠ ⟨k - 12, hk'⟩ → ib' j = s.pointer f (.entry j) := by
    intro j hj
    rw [← hib', Function.update_of_ne hj, hib]
  have hrange : ∀ j, Int32Range (ib' j) := by
    intro j
    by_cases hj : j = ⟨k - 12, hk'⟩
    · rw [hj, hib'_self]; exact int32Range_block i
    · rw [hib'_other j hj]; exact hs.int32Range _
  generalize hs' : (((s.seek p).take i).writeBlocks (a : Nat) 1
    (IndirectBlock.image ib')).writeBlocks (i : Nat) 1 chunk = s'
  have hblock : ∀ c : Nat, c < 2000 → s'.disk.block c =
      if c = i then fun j : Fin 1024 => chunk j
      else if c = a then fun j : Fin 1024 => IndirectBlock.image ib' j
      else if c = 1023 then s'.freeBlockListCache else s.disk.block c := by
    intro c hc
    subst hs'
    rw [block_writeBlock (by omega) hc, block_writeBlock (by omega) hc, block_take hc]
    simp
  have hnode : s'.iNodes f = s.iNodes f := by
    subst hs'
    simp
  have hind' : s'.pointer f .indirect = (a : Nat) := by
    rw [← hind]
    simp only [pointer, hnode]
  have hentry : ∀ j, s'.pointer f (.entry j) = ib' j := by
    intro j
    refine pointer_entry_of_image j hind' ?_ hrange
    rw [hblock a (by omega), if_neg hai, if_pos rfl]
  have hassigned : s'.pointer f (.entry ⟨k - 12, hk'⟩) = (i : Nat) :=
    (hentry _).trans hib'_self
  have hkept : ∀ r, r ≠ .entry ⟨k - 12, hk'⟩ → s'.pointer f r = s.pointer f r := by
    intro r hr
    cases r with
    | direct j => simp only [pointer, hnode]
    | indirect => rw [hind', hind]
    | entry j => rw [hentry j, hib'_other j fun h => hr (by rw [h])]
  have hrest : ∀ c : Nat, c < 2000 → c ≠ 1023 → c ≠ i → c ≠ a →
      s'.disk.block c = s.disk.block c := by
    intro c hc hc' hci hca
    rw [hblock c hc, if_neg hci, if_neg hca, if_neg hc']
  have hassign : Assigns f (fun r => if r = .entry ⟨k - 12, hk'⟩ then some i else none) s s' :=
    { inode_other := fun g _ => by subst hs'; simp
      name := by subst hs'; rfl
      size := by rw [hnode]
      linkCount := by rw [hnode]
      descriptors := by subst hs'; simp
      directory := by subst hs'; simp
      fresh := by
        intro r b h
        simp only [Option.ite_none_right_eq_some, Option.some.injEq] at h
        obtain ⟨rfl, rfl⟩ := h
        rw [blockPointer_eq (by omega), dataRef_entry hk hk'] at hnone
        exact ⟨hnone, hfree⟩
      single := by
        intro r r' b h h'
        simp only [Option.ite_none_right_eq_some] at h h'
        exact h.1.trans h'.1.symm
      assigned := by
        intro r b h
        simp only [Option.ite_none_right_eq_some, Option.some.injEq] at h
        obtain ⟨rfl, rfl⟩ := h
        exact hassigned
      kept := fun r h => hkept r fun hr => by simp [hr] at h
      marks := by
        intro b
        subst hs'
        by_cases hb : b = i <;> simp [ledger, hb]
        exact fun h => absurd h.symm hb
      frame := fun c hc hc' hno => hrest c hc hc' (fun h => hno _ (by rw [hassigned, h]))
        fun h => hno _ (by rw [hind', h])
      synced := by
        intro _
        rw [hblock 1023 (by omega), if_neg (by omega), if_neg (by omega), if_pos rfl]
      shrinks := by
        intro c
        subst hs'
        by_cases hc : c = i <;> simp [hc] }
  have hneed : s.need f k = 1 := by
    unfold need
    rw [hnone, if_pos rfl, hind, if_neg (by omega)]
  refine ⟨hassign.turn hs (by omega) (b := i) ?_ ?_
    (fun c hc hc' hne hca => hrest c hc hc' hne fun h => hca (by rw [hind', h]))
    (fun r hr _ => if_neg (by rwa [dataRef_entry hk hk'] at hr)) (fun m => ?_) ?_,
    fun j => (hentry j).symm⟩
  · rw [dataRef_entry hk hk', hassigned]
  · rw [hblock i (by omega), if_pos rfl]
  · rw [hneed, ← freeBelow_take hi m]
    exact freeBelow_congr (by subst hs'; simp [take, writeFreeBlockList]) m
  · subst hs'
    exact pos_writeBlock (by omega)

/-- The i-node of a file that gets its indirect block. -/
def withIndirect (s : Sfs) (f : Fin 300) (a : Int) : Sfs :=
  s.setINode f { s.iNodes f with indirectPointer := a }

variable (chunk) in
/-- The file gets an indirect block and a block in its first entry. -/
theorem turn_create (hs : Owned s) {a b : Fin 1024} (hind : s.pointer f .indirect = -1)
    (ha : Fin.find? s.freeCell = some a)
    (hb : Fin.find? ((s.take a).withIndirect f (a : Nat)).freeCell = some b) :
    Turn f 12 chunk s
      (((((s.take a).withIndirect f (a : Nat)).take b).writeBlocks (a : Nat) 1
        (IndirectBlock.image (Function.update (fun _ => -1) 0 (b : Nat)))).writeBlocks
          (b : Nat) 1 chunk) := by
  obtain ⟨hafree, ha1023, haunused⟩ := hs.of_find ha
  have halt := a.isLt
  have hblt := b.isLt
  have hba : b ≠ a ∧ ¬ s.ledger.busy b := by
    have := (Fin.find?_eq_some_iff.mp hb).1
    by_cases hba : b = a
    · simp [freeCell, withIndirect, hba] at this
    · exact ⟨hba, by simpa [freeCell, withIndirect, hba, ledger] using this⟩
  obtain ⟨hba, hbfree⟩ := hba
  have hba' : b.val ≠ a.val := fun h => hba (Fin.ext h)
  have hb1023 : b.val ≠ 1023 := fun h => hs.free_not_reserved hbfree (Or.inr h)
  generalize hib : (Function.update (fun _ => -1) 0 ((b : Nat) : Int) : IndirectBlock) = ib
  have hib0 : ib 0 = (b : Nat) := by rw [← hib, Function.update_self]
  have hib_other : ∀ j, j ≠ 0 → ib j = -1 := by
    intro j hj
    rw [← hib, Function.update_of_ne hj]
  have hrange : ∀ j, Int32Range (ib j) := by
    intro j
    by_cases hj : j = 0
    · rw [hj, hib0]; exact int32Range_block b
    · rw [hib_other j hj]; constructor <;> omega
  generalize hs' : ((((s.take a).withIndirect f (a : Nat)).take b).writeBlocks (a : Nat) 1
    (IndirectBlock.image ib)).writeBlocks (b : Nat) 1 chunk = s'
  have hblock : ∀ c : Nat, c < 2000 → s'.disk.block c =
      if c = b then fun j : Fin 1024 => chunk j
      else if c = a then fun j : Fin 1024 => IndirectBlock.image ib j
      else if c = 1023 then s'.freeBlockListCache else s.disk.block c := by
    intro c hc
    subst hs'
    rw [block_writeBlock (by omega) hc, block_writeBlock (by omega) hc, block_take hc,
      withIndirect, disk_setINode, block_take hc]
    by_cases h1023 : c = 1023 <;> simp [h1023]
  have hnode : s'.iNodes f = { s.iNodes f with indirectPointer := (a : Nat) } := by
    subst hs'
    simp [withIndirect]
  have hind' : s'.pointer f .indirect = (a : Nat) := by simp only [pointer, hnode]
  have hentry : ∀ j, s'.pointer f (.entry j) = ib j := by
    intro j
    refine pointer_entry_of_image j hind' ?_ hrange
    rw [hblock a (by omega), if_neg hba'.symm, if_pos rfl]
  have hold : ∀ j, s.pointer f (.entry j) = -1 := by
    intro j
    have h : (s.iNodes f).indirectPointer = -1 := hind
    simp only [pointer, h, if_true]
  have hrest : ∀ c : Nat, c < 2000 → c ≠ 1023 → c ≠ b → c ≠ a →
      s'.disk.block c = s.disk.block c := by
    intro c hc hc' hcb hca
    rw [hblock c hc, if_neg hcb, if_neg hca, if_neg hc']
  have hassigned : s'.pointer f (.entry 0) = (b : Nat) := (hentry 0).trans hib0
  have hassign : Assigns f
      (fun r => if r = .indirect then some a else if r = .entry 0 then some b else none) s s' :=
    { inode_other := fun g hg => by subst hs'; simp [withIndirect, hg]
      name := by subst hs'; rfl
      size := by rw [hnode]
      linkCount := by rw [hnode]
      descriptors := by subst hs'; simp [withIndirect]
      directory := by subst hs'; simp [withIndirect]
      fresh := by
        intro r c h
        split at h
        · next hr => cases h; exact ⟨hr ▸ hind, hafree⟩
        · simp only [Option.ite_none_right_eq_some, Option.some.injEq] at h
          obtain ⟨rfl, rfl⟩ := h
          exact ⟨hold 0, hbfree⟩
      single := by
        intro r r' c h h'
        split at h <;> split at h'
        · next hr hr' => rw [hr, hr']
        · simp only [Option.ite_none_right_eq_some, Option.some.injEq] at h h'
          exact absurd (h'.2.trans h.symm) hba
        · simp only [Option.ite_none_right_eq_some, Option.some.injEq] at h h'
          exact absurd (h.2.trans h'.symm) hba
        · simp only [Option.ite_none_right_eq_some] at h h'
          exact h.1.trans h'.1.symm
      assigned := by
        intro r c h
        split at h
        · next hr => cases h; rw [hr]; exact hind'
        · simp only [Option.ite_none_right_eq_some, Option.some.injEq] at h
          obtain ⟨rfl, rfl⟩ := h
          exact hassigned
      kept := by
        intro r h
        cases r with
        | direct i => simp only [pointer, hnode]
        | indirect => simp at h
        | entry j => rw [hentry, hold, hib_other j fun hj => by simp [hj] at h]
      marks := by
        intro c
        have hmark : s'.ledger.busy c ↔ s.ledger.busy c ∨ c = a ∨ c = b := by
          subst hs'
          by_cases hcb : c = b <;> by_cases hca : c = a <;>
            simp [ledger, withIndirect, hcb, hca]
        rw [hmark]
        refine or_congr_right ⟨?_, ?_⟩
        · rintro (rfl | rfl)
          · exact ⟨.indirect, by simp⟩
          · exact ⟨.entry 0, by simp⟩
        · rintro ⟨r, hr⟩
          split at hr
          · cases hr; exact Or.inl rfl
          · simp only [Option.ite_none_right_eq_some, Option.some.injEq] at hr
            exact Or.inr hr.2.symm
      frame := fun c hc hc' hno => hrest c hc hc' (fun h => hno _ (by rw [hassigned, h]))
        fun h => hno _ (by rw [hind', h])
      synced := by
        intro _
        rw [hblock 1023 (by omega), if_neg (by omega), if_neg (by omega), if_pos rfl]
      shrinks := by
        intro c
        subst hs'
        by_cases hcb : c = b <;> by_cases hca : c = a <;> simp [withIndirect, hcb, hca] }
  have hneed : s.need f 12 = 2 := by
    unfold need
    rw [blockPointer_eq (by omega), dataRef_entry (by omega) (by omega), hold, hind]
    simp
  refine hassign.turn hs (by omega) (b := b) ?_ ?_
    (fun c hc hc' hne hca => hrest c hc hc' hne fun h => hca (by rw [hind', h]))
    (fun r hr h => ?_) (fun m => ?_) ?_
  · rw [dataRef_entry (by omega) (by omega)]
    exact hassigned
  · rw [hblock b (by omega), if_pos rfl]
  · rw [dataRef_entry (by omega) (by omega)] at hr
    rw [if_neg (h rfl)]
    exact if_neg hr
  · have h2 : s'.freeBelow m = (((s.take a).withIndirect f (a : Nat)).take b).freeBelow m :=
      freeBelow_congr (by subst hs'; simp) m
    have h1 : ((s.take a).withIndirect f (a : Nat)).freeBelow m = (s.take a).freeBelow m :=
      freeBelow_congr (by simp [withIndirect]) m
    rw [hneed, h2, freeBelow_take hb, h1, freeBelow_take ha]
    omega
  · subst hs'
    exact pos_writeBlock (by omega)

end OsConcepts.Sfs
