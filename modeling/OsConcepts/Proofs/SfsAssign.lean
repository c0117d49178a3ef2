import OsConcepts.Proofs.SfsBlocks

/-!
# Giving blocks to a file

While `sfs_fwrite` runs, its file acquires free blocks and everything else
stays. `Extends f s s'` is that relation between two states. It composes, so
the loop is as easy as one turn, and it carries the invariant of the allocator
along (`Owned.extends`).

A turn is described by the references it assigns (`Assigns`): which ones, that
they were empty and their new blocks free, and that no block on disk changed but
the free list's and those the file now refers to. `Assigns.extends` is the only
place where the ownership argument is made; the four cases of a turn supply the
description.
-/

namespace OsConcepts.Sfs

open OsConcepts

variable {s s' s'' : Sfs} {f g : Fin 300}

/-! ## Reading ownership off the invariant -/

theorem NoSharing.eq_of_pointer_eq (h : NoSharing s) {r r' : Ref}
    (heq : s.pointer f r = s.pointer g r') (hne : s.pointer f r ≠ -1) :
    (f, r) = (g, r') := by
  have hrange := (h.range f r).resolve_left hne
  have hb : s.pointer f r = ((s.pointer f r).toNat : Int) := by omega
  exact h.sound.exclusive (i := (f, r)) (j := (g, r'))
    (b := ⟨(s.pointer f r).toNat, by omega⟩) hb (heq.symm.trans hb)

/-- The pointers of a file are -1 or block numbers: all that reading it needs. -/
def InRange (s : Sfs) (f : Fin 300) : Prop :=
  ∀ r, s.pointer f r = -1 ∨ (0 ≤ s.pointer f r ∧ s.pointer f r < 1024)

theorem InRange.nat_of_pointer (h : InRange s f) {r : Ref} (hne : s.pointer f r ≠ -1) :
    ∃ b : Fin 1024, s.pointer f r = (b : Nat) := by
  have hrange := (h r).resolve_left hne
  exact ⟨⟨(s.pointer f r).toNat, by omega⟩, show s.pointer f r = ((s.pointer f r).toNat : Int) by
    omega⟩

theorem InRange.congr (h : InRange s f) (hp : s'.pointer f = s.pointer f) : InRange s' f := by
  intro r
  rw [hp]
  exact h r

theorem NoSharing.nat_of_pointer (h : NoSharing s) {r : Ref} (hne : s.pointer f r ≠ -1) :
    ∃ b : Fin 1024, s.pointer f r = (b : Nat) ∧ s.ledger.busy b := by
  obtain ⟨b, hb⟩ := InRange.nat_of_pointer (h.range f) hne
  exact ⟨b, hb, h.sound.accounted (i := (f, r)) hb⟩

theorem NoSharing.ne_of_not_busy (h : NoSharing s) {r : Ref} {b : Fin 1024}
    (hb : ¬ s.ledger.busy b) : s.pointer f r ≠ (b : Nat) :=
  fun heq => hb (h.sound.accounted (i := (f, r)) heq)

theorem Owned.free_not_reserved (h : Owned s) {b : Fin 1024} (hb : ¬ s.ledger.busy b) :
    ¬ Reserved b := fun hr => hb (h.reserved b hr)

theorem Owned.pointer_ne_1023 (h : Owned s) {r : Ref} :
    s.pointer f r ≠ ((1023 : Nat) : Int) :=
  fun heq => h.apart f r ⟨1023, by omega⟩ heq (Or.inr rfl)

/-! ## Extension -/

/-- Of the caches, only the free list and the pointers of file `f` may have
changed. -/
structure PointersOnly (f : Fin 300) (s s' : Sfs) : Prop where
  inode_other : ∀ g, g ≠ f → s'.iNodes g = s.iNodes g
  name : s'.iNodesTableCache.name = s.iNodesTableCache.name
  size : (s'.iNodes f).size = (s.iNodes f).size
  linkCount : (s'.iNodes f).linkCount = (s.iNodes f).linkCount
  descriptors : s'.openFDTCache = s.openFDTCache
  directory : s'.rootDirectoryCache = s.rootDirectoryCache

theorem PointersOnly.refl (f : Fin 300) (s : Sfs) : PointersOnly f s s :=
  ⟨fun _ _ => rfl, rfl, rfl, rfl, rfl, rfl⟩

theorem PointersOnly.trans (h : PointersOnly f s s') (h' : PointersOnly f s' s'') :
    PointersOnly f s s'' where
  inode_other g hg := (h'.inode_other g hg).trans (h.inode_other g hg)
  name := h'.name.trans h.name
  size := h'.size.trans h.size
  linkCount := h'.linkCount.trans h.linkCount
  descriptors := h'.descriptors.trans h.descriptors
  directory := h'.directory.trans h.directory

/-- File `f` has been given blocks, and nothing else has changed: what it had
it keeps, other files and the directory are as they were, and a block on disk
that is not the free list's and not one of `f`'s holds what it held. -/
structure Extends (f : Fin 300) (s s' : Sfs) : Prop extends PointersOnly f s s' where
  keeps : ∀ r, s.pointer f r ≠ -1 → s'.pointer f r = s.pointer f r
  other : ∀ g, g ≠ f → s'.pointer g = s.pointer g
  acquires : s.ledger.Acquires s'.ledger
  frame : ∀ b : Nat, b < 2000 → b ≠ 1023 → (∀ r, s'.pointer f r ≠ b) →
    s'.disk.block b = s.disk.block b
  synced : s.disk.block 1023 = s.freeBlockListCache →
    s'.disk.block 1023 = s'.freeBlockListCache
  shrinks : ∀ b, s'.freeBlockListCache b = s.freeBlockListCache b ∨
    s'.freeBlockListCache b = OccupiedBlock

theorem Extends.refl (h : NoSharing s) : Extends f s s where
  toPointersOnly := .refl f s
  keeps _ _ := rfl
  other _ _ := rfl
  acquires := .refl h.sound
  frame _ _ _ _ := rfl
  synced := id
  shrinks _ := Or.inl rfl

theorem Extends.trans (h : Extends f s s') (h' : Extends f s' s'') : Extends f s s'' where
  toPointersOnly := h.toPointersOnly.trans h'.toPointersOnly
  keeps r hr := by
    have hk := h.keeps r hr
    exact (h'.keeps r (hk ▸ hr)).trans hk
  other g hg := (h'.other g hg).trans (h.other g hg)
  acquires := h.acquires.trans h'.acquires
  frame b hb hne hno := by
    refine (h'.frame b hb hne hno).trans (h.frame b hb hne fun r hr => hno r ?_)
    rw [h'.keeps r (by omega), hr]
  synced hs := h'.synced (h.synced hs)
  shrinks b := by
    rcases h'.shrinks b with heq | hzero
    · rw [heq]
      exact h.shrinks b
    · exact Or.inr hzero

/-- The invariant of the allocator survives, given that every pointer is still
a block number. -/
theorem Owned.acquires (h : Owned s) (ha : s.ledger.Acquires s'.ledger)
    (hrange : ∀ f r, s'.pointer f r = -1 ∨ (0 ≤ s'.pointer f r ∧ s'.pointer f r < 1024)) :
    Owned s' where
  range := hrange
  sound := h.sound.acquires ha
  reserved b hb := (ha.marks b).mpr (Or.inl (h.reserved b hb))
  apart f r b heq := by
    rcases ha.fresh (i := (f, r)) heq with hold | hfree
    · exact h.apart f r b hold
    · exact h.free_not_reserved hfree

/-! ## Assignments -/

/-- What a turn of the loop does to the references: those in `new` were empty
and hold blocks that were free, every other one of the file is as it was. -/
structure Assigns (f : Fin 300) (new : Ref → Option (Fin 1024)) (s s' : Sfs) : Prop
    extends PointersOnly f s s' where
  fresh : ∀ r b, new r = some b → s.pointer f r = -1 ∧ ¬ s.ledger.busy b
  single : ∀ r r' b, new r = some b → new r' = some b → r = r'
  assigned : ∀ r b, new r = some b → s'.pointer f r = (b : Nat)
  kept : ∀ r, new r = none → s'.pointer f r = s.pointer f r
  marks : ∀ b, s'.ledger.busy b ↔ s.ledger.busy b ∨ ∃ r, new r = some b
  frame : ∀ b : Nat, b < 2000 → b ≠ 1023 → (∀ r, s'.pointer f r ≠ b) →
    s'.disk.block b = s.disk.block b
  synced : s.disk.block 1023 = s.freeBlockListCache →
    s'.disk.block 1023 = s'.freeBlockListCache
  shrinks : ∀ b, s'.freeBlockListCache b = s.freeBlockListCache b ∨
    s'.freeBlockListCache b = OccupiedBlock

theorem Assigns.other {new : Ref → Option (Fin 1024)} (h : Assigns f new s s')
    (hs : Owned s) (hg : g ≠ f) : s'.pointer g = s.pointer g := by
  have hnode := h.inode_other g hg
  refine pointer_congr (by rw [hnode]) (by rw [hnode]) ?_
  intro hne
  obtain ⟨c, hc, hbusy⟩ := hs.nat_of_pointer hne
  have hlt := c.isLt
  rw [hc, Int.toNat_natCast]
  refine h.frame c (by omega) ?_ fun r hr => ?_
  · rintro h1023
    exact hs.pointer_ne_1023 (hc.trans (by rw [h1023]))
  · -- A block of `f` after the turn is not the indirect block of another file.
    cases hnew : new r with
    | some b =>
        have hb := h.assigned r b hnew
        have : b = c := Fin.ext (by omega)
        exact (h.fresh r b hnew).2 (this ▸ hbusy)
    | none =>
        rw [h.kept r hnew] at hr
        have := hs.eq_of_pointer_eq (hr.trans hc.symm) (by omega)
        exact hg (congrArg Prod.fst this).symm

theorem Assigns.acquires {new : Ref → Option (Fin 1024)} (h : Assigns f new s s')
    (hs : Owned s) : s.ledger.Acquires s'.ledger where
  keeps {x b} hx := by
    obtain ⟨g, r⟩ := x
    by_cases hg : g = f
    · subst hg
      cases hnew : new r with
      | some c =>
          have h1 := (h.fresh r c hnew).1
          have h2 : s.pointer g r = (b : Nat) := hx
          omega
      | none => exact (h.kept r hnew).trans hx
    · exact (congrFun (h.other hs hg) r).trans hx
  fresh {x b} hx := by
    obtain ⟨g, r⟩ := x
    by_cases hg : g = f
    · subst hg
      cases hnew : new r with
      | some c =>
          have h1 := h.assigned r c hnew
          have h2 : s'.pointer g r = (b : Nat) := hx
          have : c = b := Fin.ext (by omega)
          exact Or.inr (this ▸ (h.fresh r c hnew).2)
      | none => exact Or.inl ((h.kept r hnew).symm.trans hx)
    · exact Or.inl ((congrFun (h.other hs hg) r).symm.trans hx)
  single {x y b} hb hx hy := by
    -- Only a reference in `new` can hold a block that was free.
    have key : ∀ z : Fin 300 × Ref, s'.ledger.holds z b → z.1 = f ∧ new z.2 = some b := by
      rintro ⟨g, r⟩ hz
      by_cases hg : g = f
      · subst hg
        rcases hnew : new r with _ | c
        · exact absurd ((h.kept r hnew).symm.trans hz) (hs.ne_of_not_busy hb)
        · have h1 := h.assigned r c hnew
          have h2 : s'.pointer g r = (b : Nat) := hz
          have hcb : c = b := Fin.ext (by omega)
          exact ⟨rfl, congrArg some hcb⟩
      · exact absurd ((congrFun (h.other hs hg) r).symm.trans hz) (hs.ne_of_not_busy hb)
    obtain ⟨hx1, hx2⟩ := key x hx
    obtain ⟨hy1, hy2⟩ := key y hy
    exact Prod.ext (hx1.trans hy1.symm) (h.single _ _ b hx2 hy2)
  marks b := by
    rw [h.marks b]
    constructor
    · rintro (hb | ⟨r, hr⟩)
      · exact Or.inl hb
      · exact Or.inr ⟨(f, r), h.assigned r b hr⟩
    · rintro (hb | ⟨⟨g, r⟩, hx⟩)
      · exact Or.inl hb
      · by_cases hg : g = f
        · subst hg
          cases hnew : new r with
          | some c =>
              have h1 := h.assigned r c hnew
              have h2 : s'.pointer g r = (b : Nat) := hx
              have hcb : c = b := Fin.ext (by omega)
              exact Or.inr ⟨r, hcb ▸ hnew⟩
          | none =>
              exact Or.inl (hs.sound.accounted (i := (g, r)) ((h.kept r hnew).symm.trans hx))
        · exact Or.inl (hs.sound.accounted (i := (g, r))
            ((congrFun (h.other hs hg) r).symm.trans hx))

theorem Assigns.extends {new : Ref → Option (Fin 1024)} (h : Assigns f new s s')
    (hs : Owned s) : Extends f s s' where
  toPointersOnly := h.toPointersOnly
  keeps r hr := by
    cases hnew : new r with
    | some b => exact absurd (h.fresh r b hnew).1 hr
    | none => exact h.kept r hnew
  other _ hg := h.other hs hg
  acquires := h.acquires hs
  frame := h.frame
  synced := h.synced
  shrinks := h.shrinks

theorem Assigns.owned {new : Ref → Option (Fin 1024)} (h : Assigns f new s s')
    (hs : Owned s) : Owned s' := by
  refine hs.acquires (h.acquires hs) ?_
  intro g r
  by_cases hg : g = f
  · subst hg
    cases hnew : new r with
    | some b =>
        have := h.assigned r b hnew
        have := b.isLt
        omega
    | none =>
        rw [h.kept r hnew]
        exact hs.range g r
  · rw [h.other hs hg]
    exact hs.range g r

end OsConcepts.Sfs
