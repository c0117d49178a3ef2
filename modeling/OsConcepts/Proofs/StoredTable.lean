import OsConcepts.Proofs.Mount
import OsConcepts.Proofs.SfsCalls
import OsConcepts.Sfs.Stored

/-!
# The stored table trails the cached one

While a call runs, the i-node table on disk is behind the one in the cache: its
pointers are those the cache has, or -1 where the cache has none or has been given
one since. That is `Trailing`, together with an up-to-date free list. It is
enough for the stored i-nodes to refer to occupied blocks only
(`Trailing.noDangling`), and it survives every single write of a call that gives
no block back: a prefix of the table, whose pointers are old ones and new ones
mixed, a prefix of the directory, a data block, the free list with one block more
taken.
-/

namespace OsConcepts.Sfs

open OsConcepts

/-- A reference that is kept in the i-node itself. -/
def Ref.InNode (r : Ref) : Prop := ∀ j, r ≠ .entry j

theorem direct_inNode (i : Fin 12) : (Ref.direct i).InNode := fun _ h => by cases h

theorem indirect_inNode : Ref.indirect.InNode := fun _ h => by cases h

/-- Which field of the i-node it is. -/
def Ref.field : Ref → Nat
  | .direct i => i + 2
  | .indirect => 14
  | .entry _ => 0

/-- Where its pointer stands in the table. -/
def Ref.offset (f : Fin 300) (r : Ref) : Nat := 16 + 60 * f + 4 * r.field

theorem Ref.offset_mod (f : Fin 300) (r : Ref) : r.offset f % 4 = 0 := by
  rw [offset]
  omega

variable {d d' : Disk 1024 2000} {s s' : Sfs} {f g : Fin 300} {r : Ref}

theorem field_eq_pointer (hr : r.InNode) : (s.iNodes f).field r.field = s.pointer f r := by
  cases r with
  | direct i => exact dif_pos i.isLt
  | indirect => rfl
  | entry j => exact absurd rfl (hr j)

theorem pointer_of_iNodes (hr : r.InNode) (h : s'.iNodes f = s.iNodes f) :
    s'.pointer f r = s.pointer f r := by
  rw [← field_eq_pointer hr, ← field_eq_pointer hr, h]

theorem memInt_add (m : Mem) (o p : Nat) : memInt (fun k => m (o + k)) p = memInt m (o + p) := by
  unfold memInt
  simp only [Nat.add_assoc]

theorem pointer_stored (hr : r.InNode) :
    (stored d).pointer f r = memInt (storedTable d) (r.offset f) := by
  have hnode : (stored d).iNodes f = INode.ofImage fun k => storedTable d (16 + 60 * f + k) := rfl
  rw [Ref.offset, ← memInt_add]
  cases r with
  | direct i => rw [pointer, hnode, INode.directPointers_ofImage, Ref.field]
  | indirect => rw [pointer, hnode, INode.indirectPointer_ofImage, Ref.field]
  | entry j => exact absurd rfl (hr j)

/-- The entries are those of the block that the stored indirect pointer names. -/
theorem pointer_stored_entry {a : Nat} (j : Fin 256)
    (h : (stored d).pointer f .indirect = (a : Nat)) :
    (stored d).pointer f (.entry j) = IndirectBlock.ofImage (Block.image (d.block a)) j := by
  have hind : ((stored d).iNodes f).indirectPointer = (a : Nat) := h
  have hne : ¬ ((a : Nat) : Int) = -1 := by omega
  simp only [pointer, hind]
  rw [if_neg hne]
  rfl

theorem pointer_stored_none (j : Fin 256) (h : (stored d).pointer f .indirect = -1) :
    (stored d).pointer f (.entry j) = -1 := by
  have hind : ((stored d).iNodes f).indirectPointer = -1 := h
  simp only [pointer, hind, if_true]

/-- A pointer past the twelve blocks names nothing. -/
theorem pointer_stored_past (hr : r.InNode) (h : 12 * 1024 ≤ r.offset f) :
    (stored d).pointer f r = -1 := by
  rw [pointer_stored hr]
  refine memInt_ones ?_
  intro i _
  rw [storedTable, if_neg (by omega)]

/-- A byte of a pointer lies in the pointer's block. -/
theorem storedTable_byte {i : Nat} (hi : i < 4) (h : r.offset f < 12 * 1024) :
    storedTable d (r.offset f + i) =
      d.block (1 + r.offset f / 1024) ⟨(r.offset f + i) % 1024, Nat.mod_lt _ (by omega)⟩ := by
  have hmod := r.offset_mod f
  have haddr : (1 + r.offset f / 1024) * 1024 + (r.offset f + i) % 1024 =
      1024 + (r.offset f + i) := by omega
  rw [storedTable, if_pos (by omega), Disk.block, haddr]

/-- A pointer depends on the block of the table it stands in. -/
theorem pointer_stored_congr (hr : r.InNode)
    (h : r.offset f < 12 * 1024 →
      d'.block (1 + r.offset f / 1024) = d.block (1 + r.offset f / 1024)) :
    (stored d').pointer f r = (stored d).pointer f r := by
  by_cases hlt : r.offset f < 12 * 1024
  · rw [pointer_stored hr, pointer_stored hr]
    refine memInt_congr ?_
    intro i hi
    rw [storedTable_byte hi hlt, storedTable_byte hi hlt, h hlt]
  · rw [pointer_stored_past hr (by omega), pointer_stored_past hr (by omega)]

/-- A block of the table that is as the cache has it holds the cache's pointers. -/
theorem pointer_stored_eq (hs : NoSharing s) (hr : r.InNode) (hlt : r.offset f < 12 * 1024)
    (h : d.block (1 + r.offset f / 1024) = fun j : Fin 1024 =>
      s.iNodesTableCache.image (r.offset f / 1024 * 1024 + j)) :
    (stored d).pointer f r = s.pointer f r := by
  rw [pointer_stored hr]
  refine memInt_of_bytes (hs.int32Range r) ?_
  intro i hi
  have hmod := r.offset_mod f
  have haddr : r.offset f / 1024 * 1024 + (r.offset f + i) % 1024 = r.offset f + i := by omega
  have hdiv : (4 * r.field + i) / 4 = r.field := by omega
  have hrem : (4 * r.field + i) % 4 = i := by omega
  have hfield : 4 * r.field + i < 60 := by
    cases r with
    | direct j => rw [Ref.field]; omega
    | indirect => rw [Ref.field]; omega
    | entry j => exact absurd rfl (hr j)
  rw [storedTable_byte hi hlt, h]
  simp only [haddr]
  rw [Ref.offset, Nat.add_assoc, INodesTable.image_iNode _ _ hfield, INode.image, hdiv, hrem]
  exact congrArg (intByte · i) (field_eq_pointer hr)

theorem pointer_stored_cached (hs : NoSharing s) (hr : r.InNode)
    (h : r.offset f < 12 * 1024 → d.block (1 + r.offset f / 1024) = fun j : Fin 1024 =>
      s.iNodesTableCache.image (r.offset f / 1024 * 1024 + j)) :
    (stored d).pointer f r = -1 ∨ (stored d).pointer f r = s.pointer f r := by
  by_cases hlt : r.offset f < 12 * 1024
  · exact Or.inr (pointer_stored_eq hs hr hlt (h hlt))
  · exact Or.inl (pointer_stored_past hr (by omega))

/-! ## Trailing -/

/-- The allocator's invariant holds, the free list on disk is the cached one, and
a stored pointer is -1 or the cached one. -/
structure Trailing (s : Sfs) : Prop extends Owned s where
  freeList : s.disk.block 1023 = s.freeBlockListCache
  node : ∀ g r, r.InNode →
    (stored s.disk).pointer g r = -1 ∨ (stored s.disk).pointer g r = s.pointer g r

/-- The entries come along: they are read from the same block. -/
theorem Trailing.pointer (h : Trailing s) (g : Fin 300) (r : Ref) :
    (stored s.disk).pointer g r = -1 ∨ (stored s.disk).pointer g r = s.pointer g r := by
  cases r with
  | direct i => exact h.node g _ (direct_inNode i)
  | indirect => exact h.node g _ indirect_inNode
  | entry j =>
      rcases h.node g .indirect indirect_inNode with hnone | hsame
      · exact Or.inl (pointer_stored_none j hnone)
      · by_cases hne : s.pointer g .indirect = -1
        · exact Or.inl (pointer_stored_none j (hsame.trans hne))
        · obtain ⟨a, ha, -⟩ := h.nat_of_pointer hne
          refine Or.inr ?_
          rw [pointer_stored_entry j (hsame.trans ha)]
          have hind : (s.iNodes g).indirectPointer = (a : Nat) := ha
          have hne' : ¬ ((a : Nat) : Int) = -1 := by omega
          simp only [Sfs.pointer, hind]
          rw [if_neg hne']
          rfl

/-- What the disk refers to is occupied on it. -/
theorem Trailing.noDangling (h : Trailing s) : NoDangling s.disk.file := by
  intro g r b hb
  have hb' : (stored s.disk).pointer g r = (b : Nat) := hb
  rcases h.pointer g r with hnone | hsame
  · omega
  · have hbusy : s.ledger.busy b := h.sound.accounted (i := (g, r)) (hsame.symm.trans hb')
    show s.disk.block 1023 b = OccupiedBlock
    rw [h.freeList]
    exact hbusy

/-- A file below slot 204 is stored with all its pointers. -/
theorem Synced.pointer_stored (h : Synced s) (hs : Owned s) (hf : f.val < 204) (r : Ref) :
    (stored s.disk).pointer f r = s.pointer f r := by
  have hnode : ∀ r, r.InNode → (stored s.disk).pointer f r = s.pointer f r := by
    intro r hr
    have hlt : r.offset f < 12 * 1024 := by
      rw [Ref.offset]
      cases r with
      | direct i => rw [Ref.field]; omega
      | indirect => rw [Ref.field]; omega
      | entry j => exact absurd rfl (hr j)
    refine pointer_stored_eq hs.toNoSharing hr hlt ?_
    rw [h.iNodes _ (by omega) (by omega), Nat.add_sub_cancel_left]
  have hdirect : ((stored s.disk).iNodes f).directPointers = (s.iNodes f).directPointers :=
    funext fun i => hnode (.direct i) (direct_inNode i)
  have hind : ((stored s.disk).iNodes f).indirectPointer = (s.iNodes f).indirectPointer :=
    hnode .indirect indirect_inNode
  exact congrFun (pointer_congr hdirect hind fun _ => rfl) r

theorem Synced.trailing (h : Synced s) (hs : Owned s) : Trailing s where
  toOwned := hs
  freeList := h.freeList
  node g r hr := by
    refine pointer_stored_cached hs.toNoSharing hr ?_
    intro hlt
    rw [h.iNodes _ (by omega) (by omega), Nat.add_sub_cancel_left]

/-! ## What leaves it trailing -/

theorem pointer_stored_of_table (hr : r.InNode)
    (h : ∀ c : Nat, 1 ≤ c → c < 13 → d'.block c = d.block c) :
    (stored d').pointer f r = (stored d).pointer f r :=
  pointer_stored_congr hr fun _ => h _ (by omega) (by omega)

theorem Trailing.of_sameBlocks (h : Trailing s) (hsame : SameBlocks s s')
    (hfree : s'.disk.block 1023 = s.disk.block 1023)
    (htable : ∀ c : Nat, 1 ≤ c → c < 13 → s'.disk.block c = s.disk.block c) : Trailing s' where
  toOwned := hsame.owned h.toOwned
  freeList := by rw [hfree, h.freeList, hsame.freeList]
  node g r hr := by
    rw [pointer_stored_of_table hr htable, hsame.pointer]
    exact h.node g r hr

/-- While a file is given blocks the table on disk stays. -/
theorem Extends.table (he : Extends f s s') (hs' : Owned s') {c : Nat} (_ : 1 ≤ c)
    (hc : c < 13) : s'.disk.block c = s.disk.block c := by
  refine he.frame c (by omega) (by omega) ?_
  intro r hr
  exact hs'.apart f r ⟨c, by omega⟩ hr (Or.inl (by show c < 18; omega))

/-- The pointers of a stored i-node depend on the table and its indirect block. -/
theorem pointer_stored_of_blocks (h : ∀ c : Nat, 1 ≤ c → c < 13 → d'.block c = d.block c)
    (hb : (stored d).pointer f .indirect ≠ -1 →
      d'.block ((stored d).pointer f .indirect).toNat =
        d.block ((stored d).pointer f .indirect).toNat) :
    (stored d').pointer f = (stored d).pointer f := by
  have hnode : ∀ r, r.InNode → (stored d').pointer f r = (stored d).pointer f r :=
    fun r hr => pointer_stored_of_table hr h
  have hdirect : ((stored d').iNodes f).directPointers = ((stored d).iNodes f).directPointers :=
    funext fun i => hnode (.direct i) (direct_inNode i)
  have hind : ((stored d').iNodes f).indirectPointer = ((stored d).iNodes f).indirectPointer :=
    hnode .indirect indirect_inNode
  exact pointer_congr hdirect hind hb

/-- The file that is written gets blocks; the table on disk knows of none of
them yet. -/
theorem Trailing.extends (h : Trailing s) (he : Extends f s s') (hs' : Owned s') :
    Trailing s' where
  toOwned := hs'
  freeList := he.synced h.freeList
  node g r hr := by
    rw [pointer_stored_of_table hr fun c => he.table hs']
    rcases h.node g r hr with hnone | hold
    · exact Or.inl hnone
    · by_cases hne : s.pointer g r = -1
      · exact Or.inl (hold.trans hne)
      · refine Or.inr (hold.trans ?_)
        by_cases hg : g = f
        · subst hg
          exact (he.keeps r hne).symm
        · rw [he.other g hg]

/-- A block taken from the free list is one more that is marked. -/
theorem Trailing.take (h : Trailing s) (i : Fin 1024) : Trailing (s.take i) := by
  have hpointer : ∀ g, (s.take i).pointer g = s.pointer g := fun g =>
    h.pointer_of_block (iNodes_take s i g) fun c _ hc => by
      have hlt := c.isLt
      rw [block_take (by omega), if_neg hc]
  have hbusy : ∀ b, s.ledger.busy b → (s.take i).ledger.busy b := by
    intro b hb
    show (s.take i).freeBlockListCache b = 0
    rw [freeBlockListCache_take]
    split
    · rfl
    · exact hb
  have hholds : ∀ x b, (s.take i).ledger.holds x b → s.ledger.holds x b := fun x b hx =>
    (congrFun (hpointer x.1) x.2).symm.trans hx
  exact
    { range := fun g r => by rw [hpointer]; exact h.range g r
      sound :=
        { exclusive := fun hx hy => h.sound.exclusive (hholds _ _ hx) (hholds _ _ hy)
          accounted := fun hx => hbusy _ (h.sound.accounted (hholds _ _ hx)) }
      reserved := fun b hb => hbusy b (h.reserved b hb)
      apart := fun g r b hb => h.apart g r b (by rwa [hpointer] at hb)
      freeList := by rw [block_take (by omega), if_pos rfl]
      node := by
        intro g r hr
        rw [hpointer, pointer_stored_of_table (d := s.disk) hr fun c _ hc => ?_]
        · exact h.node g r hr
        · rw [block_take (by omega), if_neg (by omega)] }

/-- A block that holds neither a table nor pointers may be written. -/
theorem Trailing.writeBlock (h : Trailing s) {c : Nat} (hc : c < 1024) (hr : ¬ Reserved c)
    (hind : ∀ g, s.pointer g .indirect ≠ (c : Nat)) (m : Mem) :
    Trailing (s.writeBlocks (c : Nat) 1 m) := by
  have hblock : ∀ b : Nat, b < 2000 → b ≠ c →
      (s.writeBlocks (c : Nat) 1 m).disk.block b = s.disk.block b := by
    intro b hb hne
    rw [block_writeBlock (by omega) hb, if_neg hne]
  unfold Reserved at hr
  refine h.of_sameBlocks (.of_frame h.toNoSharing (by simp) (by simp)
    (fun g b hb => ?_) (by simp)) (hblock 1023 (by omega) (by omega))
    fun b _ hb => hblock b (by omega) (by omega)
  have hlt := b.isLt
  exact hblock b (by omega) fun hbc => hind g (by rw [hb, hbc])

/-- The first `n` blocks of a directory. -/
theorem Trailing.writeDirectory (h : Trailing s) (hd : IndirectApart s) (m : Mem) {n : Nat}
    (hn : n ≤ 5) : Trailing (s.writeBlocks ((301 : Nat) : Int) n m) := by
  have hblock : ∀ b : Nat, b < 2000 → ¬ DirectoryBlock b →
      (s.writeBlocks ((301 : Nat) : Int) n m).disk.block b = s.disk.block b := by
    intro b hb hne
    unfold DirectoryBlock at hne
    rw [block_writeBlocks (by omega) hb, if_neg (by omega)]
  refine h.of_sameBlocks (.of_frame h.toNoSharing (by simp) (by simp)
    (fun g b hb => ?_) (by simp)) (hblock 1023 (by omega) (by decide))
    fun b _ hb => hblock b (by omega) fun hdir => ?_
  · have hlt := b.isLt
    exact hblock b (by omega) (hd g b hb)
  · have := hdir.1
    omega

/-- The free list as it is. -/
theorem Trailing.writeFreeBlockList (h : Trailing s) : Trailing s.writeFreeBlockList := by
  have hblock : ∀ b : Nat, b < 2000 → s.writeFreeBlockList.disk.block b = s.disk.block b :=
    fun b hb => by
      rw [block_writeFreeBlockList hb]
      split
      · next h1023 => rw [h1023, h.freeList]
      · rfl
  refine h.of_sameBlocks (.of_frame h.toNoSharing (by simp) (by simp)
    (fun g b _ => hblock b (by have := b.isLt; omega)) (by simp)) (hblock 1023 (by omega))
    fun b _ hb => hblock b (by omega)

/-- The first `n` blocks of a table whose pointers are -1 or those of the cache:
old pointers and new ones. -/
theorem Trailing.writeTable (h : Trailing s) {t : Sfs} (ht : NoSharing t)
    (hp : ∀ g r, r.InNode → t.pointer g r = -1 ∨ t.pointer g r = s.pointer g r) {n : Nat}
    (hn : n ≤ 12) : Trailing (s.writeBlocks ((1 : Nat) : Int) n t.iNodesTableCache.image) := by
  generalize hs' : s.writeBlocks ((1 : Nat) : Int) n t.iNodesTableCache.image = s'
  have hblock : ∀ b : Nat, b < 2000 → s'.disk.block b =
      if 1 ≤ b ∧ b < 1 + n then fun j : Fin 1024 => t.iNodesTableCache.image ((b - 1) * 1024 + j)
      else s.disk.block b := by
    intro b hb
    subst hs'
    exact block_writeBlocks (by omega) hb
  have hsame : SameBlocks s s' := by
    subst hs'
    refine .of_frame h.toNoSharing (by simp) (by simp) (fun g b hb => ?_) (by simp)
    have hlt := b.isLt
    have hres := h.indirect_not_reserved hb
    unfold Reserved at hres
    rw [hblock b (by omega), if_neg (by omega)]
  exact
    { toOwned := hsame.owned h.toOwned
      freeList := by
        rw [hblock 1023 (by omega), if_neg (by omega), h.freeList, hsame.freeList]
      node := by
        intro g r hr
        rw [hsame.pointer]
        by_cases hin : r.offset g / 1024 < n
        · have hcached : (stored s'.disk).pointer g r = -1 ∨
              (stored s'.disk).pointer g r = t.pointer g r :=
            pointer_stored_cached ht hr fun _ => by
              rw [hblock _ (by omega), if_pos (by omega), Nat.add_sub_cancel_left]
          rcases hcached with hnone | hnew
          · exact Or.inl hnone
          · rw [hnew]
            exact hp g r hr
        · rw [pointer_stored_congr (d := s.disk) hr fun hlt => ?_]
          · exact h.node g r hr
          · rw [hblock _ (by omega), if_neg (by omega)] }

end OsConcepts.Sfs
