import Mathlib.Tactic.IntervalCases
import OsConcepts.Proofs.SfsRead

/-!
# What a write does

`sfs_fwrite` taken apart: its argument checks (`Accepts`), the reading of the
old data, which leaves every block where it is (`SameBlocks`), and the loop. A
call that is accepted and comes back has a `WriteOutcome`: it has gone through
all blocks and recorded the new size, or it has stopped on the way and recorded
nothing.
-/

namespace OsConcepts.Sfs

open OsConcepts

variable {s s' s'' : Sfs} {f g : Fin 300} {junk buf : Mem} {fd count ret : Int}

/-! ## States with the same references -/

/-- Every pointer and the free list are as they were. -/
structure SameBlocks (s s' : Sfs) : Prop where
  pointer : ∀ f, s'.pointer f = s.pointer f
  freeList : s'.freeBlockListCache = s.freeBlockListCache

theorem SameBlocks.refl (s : Sfs) : SameBlocks s s := ⟨fun _ => rfl, rfl⟩

theorem SameBlocks.trans (h : SameBlocks s s') (h' : SameBlocks s' s'') : SameBlocks s s'' :=
  ⟨fun f => (h'.pointer f).trans (h.pointer f), h'.freeList.trans h.freeList⟩

theorem SameBlocks.ledger (h : SameBlocks s s') : s'.ledger = s.ledger := by
  unfold Sfs.ledger
  rw [h.freeList]
  congr 1
  funext x b
  rw [h.pointer]

theorem SameBlocks.noSharing (h : SameBlocks s s') (hs : NoSharing s) : NoSharing s' where
  range f r := by rw [h.pointer]; exact hs.range f r
  sound := by rw [h.ledger]; exact hs.sound

theorem SameBlocks.owned (h : SameBlocks s s') (hs : Owned s) : Owned s' where
  toNoSharing := h.noSharing hs.toNoSharing
  reserved b hb := by rw [h.ledger]; exact hs.reserved b hb
  apart f r b heq := hs.apart f r b (by rw [← h.pointer]; exact heq)

theorem SameBlocks.blockPointer (h : SameBlocks s s') (f : Fin 300) (k : Nat) :
    s'.blockPointer f k = s.blockPointer f k := blockPointer_congr (h.pointer f) k

theorem SameBlocks.missing (h : SameBlocks s s') (f : Fin 300) (k n : Nat) :
    s'.missing f k n = s.missing f k n := by
  refine missing_congr ?_
  intro j _
  unfold need
  rw [h.blockPointer, h.pointer]

theorem SameBlocks.freeBelow (h : SameBlocks s s') (k : Nat) : s'.freeBelow k = s.freeBelow k :=
  freeBelow_congr h.freeList k

/-- Pointers survive whatever leaves the i-nodes' pointers and every indirect
block alone. -/
theorem SameBlocks.of_frame (hs : NoSharing s)
    (hd : ∀ g, (s'.iNodes g).directPointers = (s.iNodes g).directPointers)
    (hi : ∀ g, (s'.iNodes g).indirectPointer = (s.iNodes g).indirectPointer)
    (hb : ∀ g (c : Fin 1024), s.pointer g .indirect = (c : Nat) →
      s'.disk.block c = s.disk.block c)
    (hf : s'.freeBlockListCache = s.freeBlockListCache) : SameBlocks s s' where
  pointer g := by
    refine pointer_congr (hd g) (hi g) ?_
    intro hne
    obtain ⟨c, hc, -⟩ := hs.nat_of_pointer hne
    rw [hc, Int.toNat_natCast]
    exact hb g c hc
  freeList := hf

theorem Rereads.sameBlocks (h : Rereads f s s') : SameBlocks s s' := by
  obtain ⟨p, q, rfl⟩ := h
  exact ⟨fun g => by simp [pointer_setReadWritePointer], by simp⟩

/-! ## The loop, by its result -/

/-- The size a write leaves the file with. -/
def newFileSize (s : Sfs) (f : Fin 300) (count : Int) : Int :=
  if wrap32 (s.openFDTCache f + count) > (s.iNodes f).size then
    wrap32 (s.openFDTCache f + count)
  else (s.iNodes f).size

/-- The number of blocks the loop goes through. -/
def blocksToWrite (s : Sfs) (f : Fin 300) (count : Int) : Nat :=
  (numBlocksForFile (s.newFileSize f count)).toNat

/-- What follows the loop of a write that went through. -/
def finishWrite (s : Sfs) (f : Fin 300) (fileSize : Int) : Sfs :=
  ((s.setReadWritePointer f fileSize).setINode f
    { s.iNodes f with size := fileSize }).writeINodeTable

/-- The argument checks of `sfs_fwrite` pass, and `f` is the file. -/
structure Accepts (s : Sfs) (fd : Int) (buf : Mem) (count : Int) (f : Fin 300) : Prop where
  count_nonneg : 0 ≤ count
  slot : slot? fd = some f
  isOpen : 0 ≤ s.openFDTCache f
  short : strnlen buf 2048001 0 ≤ 2048000

/-- A descriptor accepts for one file only. -/
theorem Accepts.unique {s' : Sfs} {fd : Int} {buf buf' : Mem} {count count' : Int} {f g : Fin 300}
    (hf : Accepts s fd buf count f) (hg : Accepts s' fd buf' count' g) : g = f :=
  Option.some.inj (hg.slot.symm.trans hf.slot)

theorem Accepts.eq_of_natCast {buf : Mem} {count : Int} {f g : Fin 300}
    (h : Accepts s (f : Nat) buf count g) : g = f :=
  Option.some.inj (h.slot.symm.trans (slot?_natCast f))

/-- A write finds the blocks it is missing below `bound`; an accepted one only,
and no further than the last block a file can have. -/
def Fits (bound : Nat) (s : Sfs) : Call → Prop
  | .fwrite _ fd buf count => ∀ f, Accepts s fd buf count f →
      s.missing f 0 (min (s.blocksToWrite f count) 268) ≤ s.freeBelow bound
  | _ => True

/-- How an accepted write of `n` blocks from the buffer `data` ends: with its
return value and the state it leaves. -/
inductive WriteOutcome (f : Fin 300) (n : Nat) (data : Mem) (fileSize count : Int) (s : Sfs) :
    Int → Sfs → Prop
  | done {s₁ : Sfs} : Progress f 0 n data s s₁ →
      WriteOutcome f n data fileSize count s count (s₁.finishWrite f fileSize)
  | stopped {m : Nat} {s₁ s' : Sfs} : m < n → Progress f 0 m data s s₁ → Stops f m s₁ s' →
      WriteOutcome f n data fileSize count s (-1) s'

/-- What `sfs_fwrite` goes through, whatever the state: it is refused and changes
nothing, or it reads the file and runs its loop to the end or to an error. -/
theorem sfsFwrite_steps (h : sfsFwrite junk fd buf count s = .ok (ret, s')) :
    (ret = -1 ∧ s' = s ∧ ∀ f, ¬ Accepts s fd buf count f) ∨
    ∃ f data s₀ s₁ done, Accepts s fd buf count f ∧
      loadFileData junk f buf count (wrap32 (numBlocksForFile (s.newFileSize f count) * 1024)) s =
        .ok (data, s₀) ∧
      writeLoop junk f data (wrap32 (numBlocksForFile (s.newFileSize f count) * 1024))
        (s.blocksToWrite f count) 0 ⟨s.iNodes f, none⟩ s₀ = .ok (done, s₁) ∧
      (done = true ∧ ret = count ∧ s' = s₁.finishWrite f (s.newFileSize f count) ∨
        done = false ∧ ret = -1 ∧ s' = s₁) := by
  unfold sfsFwrite at h
  split at h
  · next hc =>
      cases h
      exact Or.inl ⟨rfl, rfl, fun f ha => absurd ha.count_nonneg (by omega)⟩
  · next hc =>
      split at h
      · next hslot =>
          cases h
          exact Or.inl ⟨rfl, rfl, fun f ha => by rw [ha.slot] at hslot; cases hslot⟩
      · next f hslot =>
          have hone : ∀ g, Accepts s fd buf count g → g = f := fun g ha =>
            Option.some.inj (ha.slot.symm.trans hslot)
          split at h
          · next hopen =>
              cases h
              refine Or.inl ⟨rfl, rfl, ?_⟩
              intro g ha
              have := ha.isOpen
              rw [hone g ha] at this
              omega
          · next hopen =>
              split at h
              · next hlen =>
                  cases h
                  exact Or.inl ⟨rfl, rfl, fun g ha => absurd ha.short (by omega)⟩
              · next hlen =>
                  obtain ⟨⟨data, s₀⟩, hload, h⟩ := ok_bind h
                  obtain ⟨⟨done, s₁⟩, hloop, h⟩ := ok_bind h
                  refine Or.inr ⟨f, data, s₀, s₁, done, ⟨by omega, hslot, by omega, by omega⟩,
                    hload, hloop, ?_⟩
                  cases done with
                  | true =>
                      cases h
                      exact Or.inl ⟨rfl, rfl, rfl⟩
                  | false =>
                      cases h
                      exact Or.inr ⟨rfl, rfl, rfl⟩

/-- The spec of `sfs_fwrite`: it is refused and changes nothing, or it reads the
file and has an outcome. -/
theorem sfsFwrite_cases (hs : Owned s) (h : sfsFwrite junk fd buf count s = .ok (ret, s')) :
    (ret = -1 ∧ s' = s ∧ ∀ f, ¬ Accepts s fd buf count f) ∨
    ∃ f data s₀, Accepts s fd buf count f ∧
      loadFileData junk f buf count (wrap32 (numBlocksForFile (s.newFileSize f count) * 1024)) s =
        .ok (data, s₀) ∧
      WriteOutcome f (s.blocksToWrite f count) data (s.newFileSize f count) count s₀ ret s' := by
  rcases sfsFwrite_steps h with hrefused | ⟨f, data, s₀, s₂, done, ha, hload, hloop, hret⟩
  · exact Or.inl hrefused
  · refine Or.inr ⟨f, data, s₀, ha, hload, ?_⟩
    have hre := loadFileData_rereads hload
    have hnode : s.iNodes f = s₀.iNodes f := by
      obtain ⟨p, q, rfl⟩ := hre
      simp
    have ht := Tracks.start s₀ f
    rw [← hnode] at ht
    obtain ⟨m, s₁, hm, hP, hend⟩ := writeLoop_cases (hre.sameBlocks.owned hs) ht hloop
    rw [Nat.zero_add] at hend
    rcases hend with ⟨rfl, rfl, rfl⟩ | ⟨rfl, hlt, hstop⟩
    · rcases hret with ⟨-, rfl, rfl⟩ | ⟨hfalse, -⟩
      · exact .done hP
      · cases hfalse
    · rcases hret with ⟨htrue, -⟩ | ⟨-, rfl, rfl⟩
      · cases htrue
      · exact .stopped hlt hP hstop

theorem need_of_no_indirect (hind : s.pointer f .indirect = -1) : s.need f 12 = 2 := by
  have hentry : s.blockPointer f 12 = -1 := by
    have h : (s.iNodes f).indirectPointer = -1 := hind
    rw [blockPointer_eq (by omega), dataRef_entry (by omega) (by omega)]
    simp only [pointer, h, if_true]
  unfold need
  rw [if_pos hentry, if_pos ⟨rfl, hind⟩]

/-- A stop below the last pointer means that blocks were missing. -/
theorem Stops.short {m : Nat} {s₁ : Sfs} {data : Mem} (h : Stops f m s₁ s')
    (hP : Progress f 0 m data s s₁) (hm : m < 268) :
    s.freeBelow 1024 < s.missing f 0 (m + 1) := by
  have hcount := hP.count 1024
  have hneed := hP.need_eq (j := m) (by omega)
  have henough := hP.enough
  rw [missing_succ, Nat.zero_add]
  cases h with
  | past p hk => omega
  | full hk hfree => omega
  | stray hk hind hfree =>
      subst hk
      have := need_of_no_indirect hind
      omega

/-- With pointers for every block and the missing blocks free, a write goes
through. -/
theorem WriteOutcome.done_of_enough {n : Nat} {data : Mem} {fileSize : Int}
    (h : WriteOutcome f n data fileSize count s ret s') (hn : n ≤ 268)
    (hfree : s.missing f 0 n ≤ s.freeBelow 1024) :
    ∃ s₁, Progress f 0 n data s s₁ ∧ ret = count ∧ s' = s₁.finishWrite f fileSize := by
  cases h with
  | done hP => exact ⟨_, hP, rfl, rfl⟩
  | @stopped m s₁ s' hm hP hstop =>
      have hshort := hstop.short hP (by omega)
      have := missing_mono (s := s) (f := f) (k := 0) (n := n) (m := m + 1) (by omega)
      omega

/-! ## Recording the size -/

theorem Owned.indirect_not_reserved (hs : Owned s) {c : Fin 1024}
    (hc : s.pointer g .indirect = (c : Nat)) : ¬ Reserved c := hs.apart g .indirect c hc

theorem block_finishWrite {fileSize : Int} {c : Nat} (hc : c < 2000) (h : ¬ Reserved c) :
    (s.finishWrite f fileSize).disk.block c = s.disk.block c := by
  unfold Reserved at h
  unfold finishWrite
  rw [block_writeINodeTable hc, if_neg (by omega)]
  simp

@[simp] theorem iNodes_writeINodeTable (s : Sfs) (g : Fin 300) :
    s.writeINodeTable.iNodes g = s.iNodes g := (rfl)

@[simp] theorem freeBlockListCache_writeINodeTable (s : Sfs) :
    s.writeINodeTable.freeBlockListCache = s.freeBlockListCache := (rfl)

@[simp] theorem openFDTCache_writeINodeTable (s : Sfs) :
    s.writeINodeTable.openFDTCache = s.openFDTCache := (rfl)

@[simp] theorem rootDirectoryCache_writeINodeTable (s : Sfs) :
    s.writeINodeTable.rootDirectoryCache = s.rootDirectoryCache := (rfl)

theorem iNodes_finishWrite (s : Sfs) (f g : Fin 300) (fileSize : Int) :
    (s.finishWrite f fileSize).iNodes g =
      if g = f then { s.iNodes f with size := fileSize } else s.iNodes g := by
  unfold finishWrite
  simp

theorem finishWrite_sameBlocks (hs : Owned s) (fileSize : Int) :
    SameBlocks s (s.finishWrite f fileSize) := by
  refine .of_frame hs.toNoSharing (fun g => ?_) (fun g => ?_) (fun g c hc => ?_) ?_
  · rw [iNodes_finishWrite]
    split
    · next h => rw [h]
    · rfl
  · rw [iNodes_finishWrite]
    split
    · next h => rw [h]
    · rfl
  · have := c.isLt
    exact block_finishWrite (by omega) (hs.indirect_not_reserved hc)
  · simp [finishWrite]

/-! ## The stray write -/

theorem intByte_neg_one {i : Nat} (hi : i < 4) : intByte (-1) i = 255 := by
  interval_cases i <;> decide

theorem image_unassigned {k : Nat} (hk : k < 1024) :
    IndirectBlock.image (fun _ => -1) k = 255 := by
  unfold IndirectBlock.image
  rw [dif_pos (by omega)]
  exact intByte_neg_one (Nat.mod_lt _ (by omega))

/-- It fills the block the stream stands at with ones. -/
theorem block_strayWrite {L c : Nat} (hpos : s.disk.pos = L * 1024) (hc : c < 2000) :
    s.strayWrite.disk.block c = if c = L then fun _ => 255 else s.disk.block c := by
  unfold strayWrite
  rw [disk_writeBlocks, Disk.writeBlocks_neg (by decide) (by decide) (by decide),
    Disk.fwrite_block hpos hc]
  split
  · funext j
    exact image_unassigned j.isLt
  · rfl

@[simp] theorem iNodes_strayWrite (s : Sfs) (g : Fin 300) :
    s.strayWrite.iNodes g = s.iNodes g := (rfl)

theorem memInt_ones {m : Mem} {off : Nat} (h : ∀ i < 4, m (off + i) = 255) :
    memInt m off = -1 := by
  refine memInt_of_bytes ⟨by omega, by omega⟩ ?_
  intro i hi
  rw [h i hi, intByte_neg_one hi]

/-- A file whose indirect block stands there loses all its entries. -/
theorem pointer_strayWrite_entry {L : Nat} (hpos : s.disk.pos = L * 1024) (hL : L < 1024)
    (hind : s.pointer g .indirect = (L : Nat)) (j : Fin 256) :
    s.strayWrite.pointer g (.entry j) = -1 := by
  have hj := j.isLt
  have hind' : (s.strayWrite.iNodes g).indirectPointer = (L : Nat) := by
    rw [iNodes_strayWrite]
    exact hind
  have hne : ¬ ((L : Nat) : Int) = -1 := by omega
  simp only [pointer, hind', hne, if_false, indirectBlockAt, IndirectBlock.ofImage,
    Int.toNat_natCast]
  refine memInt_ones ?_
  intro i hi
  unfold Block.image
  rw [dif_pos (by omega), block_strayWrite hpos (by omega), if_pos rfl]

theorem pointer_strayWrite {L : Nat} (hs : NoSharing s) (hpos : s.disk.pos = L * 1024)
    (hind : s.pointer g .indirect ≠ (L : Nat)) : s.strayWrite.pointer g = s.pointer g := by
  refine pointer_congr (by simp) (by simp) ?_
  intro hne
  obtain ⟨c, hc, -⟩ := hs.nat_of_pointer hne
  have hlt := c.isLt
  rw [hc, Int.toNat_natCast, block_strayWrite hpos (by omega), if_neg]
  rintro rfl
  exact hind hc

theorem strayWrite_kept_or_gone {L : Nat} (hs : NoSharing s) (hpos : s.disk.pos = L * 1024)
    (g : Fin 300) (r : Ref) :
    s.strayWrite.pointer g r = s.pointer g r ∨ s.strayWrite.pointer g r = -1 := by
  by_cases hind : s.pointer g .indirect = (L : Nat)
  · cases r with
    | direct i => exact Or.inl (by simp only [pointer, iNodes_strayWrite])
    | indirect => exact Or.inl (by simp only [pointer, iNodes_strayWrite])
    | entry j =>
        have hrange := hs.range g .indirect
        exact Or.inr (pointer_strayWrite_entry hpos (by omega) hind j)
  · exact Or.inl (congrFun (pointer_strayWrite hs hpos hind) r)

theorem strayWrite_forgets {L : Nat} (hs : NoSharing s) (hpos : s.disk.pos = L * 1024) :
    s.ledger.Forgets s.strayWrite.ledger where
  sub {x b} hx := by
    rcases strayWrite_kept_or_gone hs hpos x.1 x.2 with h | h
    · exact h.symm.trans hx
    · have hx' : s.strayWrite.pointer x.1 x.2 = (b : Nat) := hx
      omega
  marks _ := Iff.rfl

theorem strayWrite_noSharing {L : Nat} (hs : NoSharing s) (hpos : s.disk.pos = L * 1024) :
    NoSharing s.strayWrite where
  range f r := by
    rcases strayWrite_kept_or_gone hs hpos f r with h | h
    · rw [h]; exact hs.range f r
    · exact Or.inl h
  sound := hs.sound.forgets (strayWrite_forgets hs hpos)

end OsConcepts.Sfs
