import OsConcepts.Proofs.StoredTable
import OsConcepts.Proofs.StrayWrite

/-!
# Stopping a write between two blocks

The loop of `sfs_fwrite` saves what it changes in this order: the free list
without the block, the indirect block with its number, the block itself, and the
table after all turns. So wherever it is stopped the disk refers to occupied
blocks only. Every write of a turn but one leaves the state `Trailing`; after the
write of an indirect block the entries are already those the turn is about to
give, and `Trailing.noDangling_fill` looks at them directly. The stray write is
not among them: it may fill the free list's own block.
-/

namespace OsConcepts.Sfs

open OsConcepts OsConcepts.Disk

variable {s s' : Sfs} {f g : Fin 300} {k : Nat} {l l' : WriteLocals} {junk m : Mem}
  {o : Option Int}

/-! ## Single writes -/

theorem Trailing.refl_safely (h : Trailing s) : Safely NoDangling s.disk s.disk :=
  .refl h.noDangling

theorem Trailing.writeBlock_safely (h : Trailing s) {c : Nat} (hc : c < 2000)
    (h' : NoDangling (s.writeBlocks (c : Nat) 1 m).disk.file) :
    Safely NoDangling s.disk (s.writeBlocks (c : Nat) 1 m).disk := by
  rw [disk_writeBlocks] at h' ⊢
  exact Safely.writeBlock (by decide) disk_size_lt hc h.noDangling h'

theorem Trailing.take_safely (h : Trailing s) (i : Fin 1024) :
    Safely NoDangling s.disk (s.take i).disk :=
  Safely.writeBlock (a := 1023) (by decide) disk_size_lt (by decide) h.noDangling
    (h.take i).noDangling

theorem Trailing.seek (h : Trailing s) (p : Nat) : Trailing (s.seek p) :=
  h.of_sameBlocks ⟨fun _ => rfl, rfl⟩ rfl fun _ _ _ => rfl

theorem Trailing.seek_safely (h : Trailing s) (p : Nat) :
    Safely NoDangling s.disk (s.seek p).disk := .moveTo h.noDangling p

/-- A block is filled that is no table's. What it says as an indirect block must
be occupied. -/
theorem Trailing.noDangling_fill (h : Trailing s) {L : Nat} {x : Block} {d : Disk 1024 2000}
    (hL : L < 1024) (hr : ¬ Reserved L)
    (hd : ∀ c : Nat, c < 2000 → d.block c = if c = L then x else s.disk.block c)
    (hx : ∀ g, s.pointer g .indirect = (L : Nat) → ∀ j (b : Fin 1024),
      IndirectBlock.ofImage x.image j = (b : Nat) → s.ledger.busy b) : NoDangling d.file := by
  unfold Reserved at hr
  have hnode : ∀ g r, r.InNode → (stored d).pointer g r = (stored s.disk).pointer g r :=
    fun g r hr' => pointer_stored_of_table hr' fun c _ hc => by
      rw [hd c (by omega), if_neg (by omega)]
  have hmarks : ∀ b, s.ledger.busy b → (stored d).ledger.busy b := by
    intro b hb
    show d.block 1023 b = OccupiedBlock
    rw [hd 1023 (by omega), if_neg (by omega), h.freeList]
    exact hb
  have hold : ∀ g r (b : Fin 1024), (stored s.disk).pointer g r = (b : Nat) →
      s.ledger.busy b := by
    intro g r b hb
    have hpointer := (h.pointer g r).resolve_left (by omega)
    exact h.sound.accounted (i := (g, r)) (hpointer.symm.trans hb)
  intro g r b hb
  have hb' : (stored d).pointer g r = (b : Nat) := hb
  refine hmarks b ?_
  cases r with
  | direct i =>
      rw [hnode g _ (direct_inNode i)] at hb'
      exact hold g _ b hb'
  | indirect =>
      rw [hnode g _ indirect_inNode] at hb'
      exact hold g _ b hb'
  | entry j =>
      have hind := hnode g _ indirect_inNode
      by_cases hnone : (stored s.disk).pointer g .indirect = -1
      · rw [pointer_stored_none j (hind.trans hnone)] at hb'
        omega
      · have hcached := (h.node g _ indirect_inNode).resolve_left hnone
        obtain ⟨a, ha, -⟩ := h.nat_of_pointer (by rwa [← hcached])
        have halt := a.isLt
        rw [pointer_stored_entry j (hind.trans (hcached.trans ha)), hd a (by omega)] at hb'
        by_cases haL : a.val = L
        · rw [if_pos haL] at hb'
          exact hx g (by rw [ha, haL]) j b hb'
        · rw [if_neg haL, ← pointer_stored_entry j (hcached.trans ha)] at hb'
          exact hold g _ b hb'

theorem Trailing.noDangling_writeIndirect (h : Trailing s) {a : Fin 1024} {ib : IndirectBlock}
    (hind : s.pointer f .indirect = (a : Nat)) (hrange : ∀ j, Int32Range (ib j))
    (hbusy : ∀ j (b : Fin 1024), ib j = (b : Nat) → s.ledger.busy b) :
    NoDangling (s.writeBlocks (a : Nat) 1 ib.image).disk.file := by
  have hlt := a.isLt
  refine h.noDangling_fill hlt (h.indirect_not_reserved hind)
    (fun c hc => block_writeBlock (by omega) hc) fun g _ j b hb => hbusy j b ?_
  rwa [IndirectBlock.ofImage_image hrange] at hb

/-! ## A turn -/

/-- What `allocateBlock` delivers, -1 or a block it has marked. -/
theorem Trailing.allocateBlock_spec (h : Trailing s) : ∃ x u, s.allocateBlock = (x, u) ∧
    Trailing u ∧ Safely NoDangling s.disk u.disk ∧ (∀ g, u.iNodes g = s.iNodes g) ∧
    Int32Range x ∧ (∀ b : Fin 1024, x = (b : Nat) → u.ledger.busy b) ∧
    ∀ b, s.ledger.busy b → u.ledger.busy b := by
  cases hi : Fin.find? s.freeCell with
  | none =>
      exact ⟨-1, s, allocateBlock_none hi, h, h.refl_safely, fun _ => rfl, int32Range_neg_one,
        fun b hb => by omega, fun _ hb => hb⟩
  | some i =>
      refine ⟨_, _, allocateBlock_some hi, h.take i, h.take_safely i, fun g => iNodes_take s i g,
        int32Range_block i, fun b hb => ?_, fun b hb => ?_⟩
      · show (s.take i).freeBlockListCache b = 0
        rw [freeBlockListCache_take, if_pos (Fin.ext (by omega))]
      · show (s.take i).freeBlockListCache b = 0
        rw [freeBlockListCache_take]
        split
        · rfl
        · exact hb

theorem disk_take_congr {t : Sfs} (hd : t.disk = s.disk)
    (hf : t.freeBlockListCache = s.freeBlockListCache) (i : Fin 1024) :
    (t.take i).disk = (s.take i).disk := by
  rw [Sfs.take, Sfs.take, writeFreeBlockList, writeFreeBlockList, disk_writeBlocks,
    disk_writeBlocks, hd, hf]

/-- The new indirect block is no one's yet, on disk or in the cache. -/
theorem Trailing.createIndirect_safely (h : Trailing s) {a : Fin 1024}
    (ha : Fin.find? s.freeCell = some a) :
    Safely NoDangling s.disk (createIndirect f l s).2.2.disk := by
  obtain ⟨hfree, -, hunused⟩ := h.of_find ha
  have hlt := a.isLt
  have hres := h.free_not_reserved hfree
  -- `t` is the state as if the i-node had not been touched.
  have hwrite : ∀ (t u : Sfs) (m : Mem), Trailing t → (∀ g, t.iNodes g = s.iNodes g) →
      u.disk = t.disk → Safely NoDangling t.disk (u.writeBlocks (a : Nat) 1 m).disk := by
    intro t u m ht hn hu
    have hdisk : (u.writeBlocks (a : Nat) 1 m).disk = (t.writeBlocks (a : Nat) 1 m).disk := by
      rw [disk_writeBlocks, disk_writeBlocks, hu]
    rw [hdisk]
    refine ht.writeBlock_safely (by omega) (ht.writeBlock hlt hres (fun g hg => ?_) m).noDangling
    refine hunused g .indirect ?_
    simp only [Sfs.pointer, hn] at hg
    exact hg
  have htake := h.take a
  have hone := h.take_safely a
  cases hb : Fin.find? ((s.take a).withIndirect f (a : Nat)).freeCell with
  | none =>
      obtain ⟨l', hl'⟩ := createIndirect_one (l := l) ha hb
      rw [hl']
      refine hone.trans (hwrite _ _ _ htake (fun g => iNodes_take s a g) ?_)
      rw [withIndirect, disk_setINode]
  | some b =>
      rw [createIndirect_some ha hb]
      refine (hone.trans (htake.take_safely b)).trans
        (hwrite _ _ _ (htake.take b) (fun g => by rw [iNodes_take, iNodes_take]) ?_)
      exact disk_take_congr (by rw [withIndirect, disk_setINode])
        (by rw [withIndirect, freeBlockListCache_setINode]) b

/-- An entry is assigned whatever `allocateBlock` finds, a block it has marked or
-1. -/
theorem Trailing.writeEntry_safely (h : Trailing s) {a : Fin 1024} {ib : IndirectBlock} {p : Nat}
    (hind : s.pointer f .indirect = (a : Nat)) (hib : ∀ j, ib j = s.pointer f (.entry j))
    (e : Fin 256) : Safely NoDangling s.disk ((s.seek p).allocateBlock.2.writeBlocks (a : Nat) 1
      (IndirectBlock.image (Function.update ib e (s.seek p).allocateBlock.1))).disk := by
  have hlt := a.isLt
  have hseek := h.seek p
  obtain ⟨x, u, halloc, hu, hsafe, hnode, hx, hxbusy, hbusy⟩ := hseek.allocateBlock_spec
  have hind' : u.pointer f .indirect = (a : Nat) := by
    rw [← hind]
    simp only [Sfs.pointer, hnode, iNodes_seek]
  have hentry : ∀ j, Function.update ib e x j = x ∨
      Function.update ib e x j = s.pointer f (.entry j) := by
    intro j
    by_cases hj : j = e
    · rw [hj, Function.update_self]
      exact Or.inl rfl
    · rw [Function.update_of_ne hj, hib]
      exact Or.inr rfl
  rw [halloc]
  refine ((h.seek_safely p).trans hsafe).trans (hu.writeBlock_safely (by omega)
    (hu.noDangling_writeIndirect hind' (fun j => ?_) fun j b hb => ?_))
  · rcases hentry j with hj | hj
    · rw [hj]
      exact hx
    · rw [hj]
      exact h.int32Range _
  · rcases hentry j with hj | hj
    · exact hxbusy b (hj.symm.trans hb)
    · exact hbusy b (h.sound.accounted (i := (f, .entry j)) (hj.symm.trans hb))

/-- The writes of a turn before that of its block, unless the indirect block has
nowhere to go. -/
theorem Trailing.chooseBlock_safely (h : Trailing s) (ht : Tracks f k l s)
    (hsteady : ¬ (k = 12 ∧ s.pointer f .indirect = -1 ∧ s.freeBelow 1024 = 0))
    (hc : chooseBlock junk f k l s = (o, l', s')) : Safely NoDangling s.disk s'.disk := by
  unfold chooseBlock at hc
  by_cases h12 : k < 12
  · rw [dif_pos h12] at hc
    dsimp only at hc
    split at hc
    · cases hc
      rw [disk_setINode]
      obtain ⟨x, u, halloc, -, hsafe, -⟩ := h.allocateBlock_spec
      rw [halloc]
      exact hsafe
    · cases hc
      exact h.refl_safely
  · rw [dif_neg h12, ht.indirect] at hc
    by_cases hind : s.pointer f .indirect = -1
    · have hk12 : k = 12 := by
        by_contra hne
        exact ht.past (by omega) hind
      rw [if_pos (by omega)] at hc
      obtain ⟨a, ha⟩ := find_of_freeBelow (s := s) (by omega)
      have hcreate := h.createIndirect_safely (f := f) (l := l) ha
      cases hc
      exact hcreate
    · obtain ⟨a, ha, -⟩ := h.nat_of_pointer hind
      obtain ⟨ib, p, hload, hib⟩ := loadIndirectForWrite_eq junk h.toNoSharing ht hind
      rw [if_neg (by omega), hload] at hc
      dsimp only at hc
      have hmove := h.seek_safely p
      split at hc
      · next hk256 =>
          split at hc
          · have hentry := h.writeEntry_safely (p := p) ha hib ⟨k - 12, hk256⟩
            rw [ht.indirect, ha] at hc
            cases hc
            exact hentry
          · cases hc
            exact hmove
      · cases hc
        exact hmove

/-! ## The loop -/

/-- The loop has come to index 12 of a file without indirect block, and no block
is free. -/
def IsDry (s : Sfs) (f : Fin 300) (k : Nat) : Prop :=
  k = 12 ∧ s.pointer f .indirect = -1 ∧ s.freeBelow 1024 = 0

/-- A turn is safe from its first write to its last. -/
theorem Trailing.turn_safely {b : Fin 1024} (h : Trailing s) (ht : Tracks f k l s)
    (hc : chooseBlock junk f k l s = (some ((b : Nat) : Int), l', s'))
    (hT : Turn f k m s (s'.writeBlocks (b : Nat) 1 m)) :
    Trailing (s'.writeBlocks (b : Nat) 1 m) ∧
      Safely NoDangling s.disk (s'.writeBlocks (b : Nat) 1 m).disk := by
  have hend := h.extends hT.ext hT.owned
  have hsteady : ¬ IsDry s f k := fun ⟨h12, hind, hfree⟩ => by
    subst h12
    have hneed := need_of_no_indirect hind
    obtain ⟨o, l₁, s₁, hstop, ho, -⟩ := chooseBlock_stop junk h.toOwned ht (by omega)
    rw [hc] at hstop
    cases hstop
    rcases ho with hnone | hneg
    · cases hnone
    · have := Option.some.inj hneg
      omega
  have hlt := b.isLt
  have hchoose := h.chooseBlock_safely ht hsteady hc
  refine ⟨hend, hchoose.trans ?_⟩
  have hlast := hend.noDangling
  rw [disk_writeBlocks] at hlast ⊢
  exact Safely.writeBlock (by decide) disk_size_lt (by omega) hchoose.last hlast

/-- `Trailing` and the safety of what was written, as the loop carries them along. -/
def RunsSafely (s s' : Sfs) : Prop :=
  Trailing s → Trailing s' ∧ Safely NoDangling s.disk s'.disk

theorem RunsSafely.trans {t : Sfs} (h : RunsSafely s s') (h' : RunsSafely s' t) :
    RunsSafely s t := by
  intro hs
  obtain ⟨hs', hsafe⟩ := h hs
  obtain ⟨ht, hsafe'⟩ := h' hs'
  exact ⟨ht, hsafe.trans hsafe'⟩

theorem Trailing.writeLoop_safely {capacity : Int} {n : Nat} {buffer : Mem} {b : Bool}
    (h : Trailing s) (ht : Tracks f k l s)
    (hw : writeLoop junk f buffer capacity n k l s = .ok (b, s')) :
    ∃ m s₁, m ≤ n ∧ Progress f k m buffer s s₁ ∧ Trailing s₁ ∧ Safely NoDangling s.disk s₁.disk ∧
      (b = true ∧ m = n ∧ s' = s₁ ∨ b = false ∧ m < n ∧ Stops f (k + m) s₁ s' ∧
        (¬ IsDry s₁ f (k + m) → Safely NoDangling s₁.disk s'.disk)) := by
  obtain ⟨m, s₁, hm, hP, hR, hend⟩ := writeLoop_along (R := RunsSafely)
    (fun s hs => ⟨hs, hs.refl_safely⟩) RunsSafely.trans
    (fun _ ht hc hT hs => hs.turn_safely ht hc hT) h.toOwned ht hw
  obtain ⟨hs₁, hsafe⟩ := hR h
  refine ⟨m, s₁, hm, hP, hs₁, hsafe, hend.imp_right ?_⟩
  rintro ⟨hb, hlt, hstop, o, l₁, l', ht₁, hc⟩
  exact ⟨hb, hlt, hstop, fun hsteady => hs₁.chooseBlock_safely ht₁ hsteady hc⟩

end OsConcepts.Sfs
