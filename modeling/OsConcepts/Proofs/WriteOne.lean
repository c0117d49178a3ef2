import OsConcepts.Proofs.WriteFrame

/-!
# One file at a time

`sfs_fwrite` looks at no i-node but its own file's, up to the moment it saves
the table. So what it does to a file can be told from a state in which every
other i-node is unused (`only`), and it is enough that the blocks of this one
file are its own (`OwnsBlocks`).
-/

namespace OsConcepts.Sfs

open OsConcepts

variable {s s' : Sfs} {f : Fin 300} {junk buf data : Mem} {fd count ret fileSize : Int}
  {n : Nat}

/-! ## The other files left out -/

/-- The state without the other files' i-nodes. -/
def only (s : Sfs) (f : Fin 300) : Sfs :=
  { s with iNodesTableCache :=
      { s.iNodesTableCache with
        iNodes := fun g => if g = f then s.iNodes f else INode.unused } }

@[simp] theorem iNodes_only (s : Sfs) (f : Fin 300) : (s.only f).iNodes f = s.iNodes f :=
  if_pos rfl

theorem iNodes_only_other {g : Fin 300} (hg : g ≠ f) : (s.only f).iNodes g = INode.unused :=
  if_neg hg

@[simp] theorem openFDTCache_only (s : Sfs) (f : Fin 300) :
    (s.only f).openFDTCache = s.openFDTCache := (rfl)

@[simp] theorem freeBlockListCache_only (s : Sfs) (f : Fin 300) :
    (s.only f).freeBlockListCache = s.freeBlockListCache := (rfl)

@[simp] theorem disk_only (s : Sfs) (f : Fin 300) : (s.only f).disk = s.disk := (rfl)

theorem pointer_only (s : Sfs) (f : Fin 300) : (s.only f).pointer f = s.pointer f :=
  pointer_congr (by rw [iNodes_only]) (by rw [iNodes_only]) fun _ => by rw [disk_only]

theorem byteAt_only (s : Sfs) (f : Fin 300) (k : Nat) : (s.only f).byteAt f k = s.byteAt f k :=
  byteAt_congr (pointer_only s f) (by rw [disk_only])

theorem backed_only : Backed (s.only f) f ↔ Backed s f := by
  unfold Backed
  rw [iNodes_only]
  simp only [blockPointer_congr (pointer_only s f)]

theorem contents_only (s : Sfs) (f : Fin 300) : (s.only f).contents f = s.contents f := by
  unfold contents
  rw [iNodes_only]
  exact List.map_congr_left fun k _ => byteAt_only s f k

/-! ## The write without them -/

theorem setINode_only (s : Sfs) (f : Fin 300) (node : INode) :
    (s.only f).setINode f node = (s.setINode f node).only f := by
  have h : Function.update (s.only f).iNodesTableCache.iNodes f node =
      fun g => if g = f then (s.setINode f node).iNodes f else INode.unused := by
    refine funext fun g => ?_
    by_cases hg : g = f
    · rw [hg, Function.update_self, if_pos rfl, iNodes_setINode, if_pos rfl]
    · rw [Function.update_of_ne hg, if_neg hg]
      exact if_neg hg
  rw [setINode, h]
  rfl

theorem allocateBlock_only (s : Sfs) (f : Fin 300) :
    (s.only f).allocateBlock = (s.allocateBlock.1, s.allocateBlock.2.only f) := by
  unfold allocateBlock
  rw [freeBlockListCache_only]
  cases Fin.find? fun i => s.freeBlockListCache i != 0 <;> rfl

theorem sfsFseek_only (loc : Int) (s : Sfs) :
    sfsFseek (f : Nat) loc (s.only f) =
      (sfsFseek (f : Nat) loc s).map fun r => (r.1, r.2.only f) := by
  unfold sfsFseek
  rw [slot?_natCast]
  dsimp only
  rw [iNodes_only, openFDTCache_only]
  split
  · rfl
  · split
    · rfl
    · split <;> rfl

theorem sfsFread_only (count : Int) (s : Sfs) :
    sfsFread junk (f : Nat) count (s.only f) =
      (sfsFread junk (f : Nat) count s).map fun r => (r.1, r.2.1, r.2.2.only f) := by
  unfold sfsFread
  rw [slot?_natCast]
  dsimp only
  rw [iNodes_only, openFDTCache_only, disk_only]
  split
  · rfl
  · split
    · rfl
    · split
      · rfl
      · cases readLoop junk (s.iNodes f) (numBlocksForFile (s.iNodes f).size).toNat 0
          ⟨fun _ => 0, fun _ => 0, none, s.disk⟩ with
        | mk r done =>
            cases done with
            | false => rfl
            | true =>
                dsimp only
                generalize (if (s.iNodes f).size < wrap32 (s.openFDTCache f + count) then
                  wrap32 ((s.iNodes f).size - s.openFDTCache f) else count) = bytesToRead
                split <;> rfl

theorem loadFileData_only {capacity : Int} (h : loadFileData junk f buf count capacity s =
    .ok (data, s')) :
    loadFileData junk f buf count capacity (s.only f) = .ok (data, s'.only f) := by
  unfold loadFileData at h ⊢
  obtain ⟨⟨r₁, s₁⟩, h₁, h⟩ := ok_bind h
  obtain ⟨⟨r₂, bytes, s₂⟩, h₂, h⟩ := ok_bind h
  dsimp only at h
  split at h
  · cases h
  · next hlen =>
      obtain ⟨⟨r₃, s₃⟩, h₃, h⟩ := ok_bind h
      dsimp only at h
      split at h
      · cases h
      · next hfit =>
          cases h
          simp only [sfsFseek_only, sfsFread_only, h₁, h₂, h₃, Except.map, iNodes_only,
            openFDTCache_only, bind, Except.bind]
          rw [if_neg hlen, if_neg hfit]
          rfl

theorem createIndirect_only (l : WriteLocals) (s : Sfs) :
    createIndirect f l (s.only f) =
      ((createIndirect f l s).1, (createIndirect f l s).2.1,
        (createIndirect f l s).2.2.only f) := by
  unfold createIndirect
  simp only [allocateBlock_only, iNodes_only, setINode_only]
  rfl

theorem readBlocks_only (a : Int) (buffer : Mem) (s : Sfs) :
    (s.only f).readBlocks junk a count buffer =
      ((s.readBlocks junk a count buffer).1, (s.readBlocks junk a count buffer).2.only f) := (rfl)

theorem writeBlocks_only (a : Int) (buffer : Mem) (s : Sfs) :
    (s.only f).writeBlocks a count buffer = (s.writeBlocks a count buffer).only f := (rfl)

theorem loadIndirectForWrite_only (l : WriteLocals) (s : Sfs) :
    loadIndirectForWrite junk l (s.only f) =
      ((loadIndirectForWrite junk l s).1, (loadIndirectForWrite junk l s).2.1,
        (loadIndirectForWrite junk l s).2.2.only f) := by
  unfold loadIndirectForWrite
  cases l.indirectBlock with
  | none => simp only [readBlocks_only]
  | some indirectBlock => simp only

theorem chooseBlock_only (k : Nat) (l : WriteLocals) (s : Sfs) :
    chooseBlock junk f k l (s.only f) =
      ((chooseBlock junk f k l s).1, (chooseBlock junk f k l s).2.1,
        (chooseBlock junk f k l s).2.2.only f) := by
  unfold chooseBlock
  by_cases hk : k < 12
  · rw [dif_pos hk, dif_pos hk]
    dsimp only
    split
    · simp only [allocateBlock_only, iNodes_only, setINode_only]
    · rfl
  · rw [dif_neg hk, dif_neg hk]
    split
    · simp only [createIndirect_only]
    · rw [loadIndirectForWrite_only]
      generalize loadIndirectForWrite junk l s = x
      obtain ⟨indirectBlock, l', s₁⟩ := x
      dsimp only
      split
      · split
        · simp only [allocateBlock_only, writeBlocks_only]
        · rfl
      · rfl

theorem writeLoop_only {capacity : Int} : ∀ {n k : Nat} {l : WriteLocals} {s : Sfs} {b : Bool},
    writeLoop junk f data capacity n k l s = .ok (b, s') →
    writeLoop junk f data capacity n k l (s.only f) = .ok (b, s'.only f) := by
  intro n
  induction n with
  | zero =>
      intro k l s b h
      cases h
      rfl
  | succ n ih =>
      intro k l s b h
      rw [writeLoop] at h ⊢
      rw [chooseBlock_only]
      rcases hchoose : chooseBlock junk f k l s with ⟨o, l', s₁⟩
      rw [hchoose] at h
      cases o with
      | none =>
          cases h
          rfl
      | some block =>
          dsimp only at h ⊢
          split at h
          · next hbad =>
              cases h
              rw [if_pos hbad]
          · next hgood =>
              rw [if_neg hgood]
              split at h
              · cases h
              · next hroom =>
                  rw [if_neg hroom, writeBlocks_only]
                  exact ih h

/-! ## A file whose blocks are its own -/

/-- The pointers of `f` are -1 or distinct occupied blocks, none of them one of
the reserved blocks, and these are occupied too. -/
structure OwnsBlocks (s : Sfs) (f : Fin 300) : Prop where
  range : ∀ r, s.pointer f r = -1 ∨ (0 ≤ s.pointer f r ∧ s.pointer f r < 1024)
  distinct : ∀ r r', s.pointer f r = s.pointer f r' → s.pointer f r ≠ -1 → r = r'
  occupied : ∀ r (b : Fin 1024), s.pointer f r = (b : Nat) →
    s.freeBlockListCache b = OccupiedBlock
  apart : ∀ r (b : Fin 1024), s.pointer f r = (b : Nat) → ¬ Reserved b
  reserved : ∀ b : Fin 1024, Reserved b → s.freeBlockListCache b = OccupiedBlock

theorem pointer_only_other {g : Fin 300} (hg : g ≠ f) (r : Ref) : (s.only f).pointer g r = -1 := by
  have hnode := iNodes_only_other (s := s) hg
  cases r with
  | direct i => rw [pointer, hnode, INode.unused]
  | indirect => rw [pointer, hnode, INode.unused]
  | entry j => rw [pointer, hnode, INode.unused, if_pos rfl]

/-- Only the pointers of `f` are left to speak of. -/
theorem ownsBlocks_iff : OwnsBlocks s f ↔ Owned (s.only f) := by
  constructor
  · intro h
    have hf : ∀ {g r} {b : Fin 1024}, (s.only f).pointer g r = (b : Nat) →
        g = f ∧ s.pointer f r = (b : Nat) := by
      intro g r b hb
      by_cases hg : g = f
      · subst hg
        rw [pointer_only] at hb
        exact ⟨rfl, hb⟩
      · rw [pointer_only_other hg] at hb
        omega
    exact
      { range := by
          intro g r
          by_cases hg : g = f
          · subst hg
            rw [pointer_only]
            exact h.range r
          · exact Or.inl (pointer_only_other hg r)
        sound :=
          { exclusive := fun {i j b} hi hj => by
              obtain ⟨hfi, hbi⟩ := hf hi
              obtain ⟨hfj, hbj⟩ := hf hj
              exact Prod.ext (hfi.trans hfj.symm)
                (h.distinct _ _ (hbi.trans hbj.symm) (by rw [hbi]; omega))
            accounted := fun {i b} hi => h.occupied _ b (hf hi).2 }
        reserved := h.reserved
        apart := fun g r b hb => h.apart r b (hf hb).2 }
  · intro h
    have hown : ∀ r, (s.only f).pointer f r = s.pointer f r := fun r => by rw [pointer_only]
    refine ⟨fun r => hown r ▸ h.range f r, fun r r' heq hne => ?_, fun r b hb => ?_,
      fun r b hb => h.apart f r b ((hown r).trans hb), h.reserved⟩
    · rw [← hown r, ← hown r'] at heq
      exact congrArg Prod.snd (h.toNoSharing.eq_of_pointer_eq heq (by rwa [hown]))
    · exact h.sound.accounted (i := (f, r)) ((hown r).trans hb)

theorem Owned.ownsBlocks (hs : Owned s) (f : Fin 300) : OwnsBlocks s f where
  range := hs.range f
  distinct _ _ heq hne := congrArg Prod.snd (hs.toNoSharing.eq_of_pointer_eq heq hne)
  occupied r _ hb := hs.sound.accounted (i := (f, r)) hb
  apart := hs.apart f
  reserved := hs.reserved

/-! ## A successful write -/

/-- A write that returned `count` loaded the file, went through all its blocks
and saved the size. -/
theorem sfsFwrite_done (hcount : 0 ≤ count)
    (h : sfsFwrite junk (f : Nat) buf count s = .ok (count, s')) :
    ∃ data s₀ s₁, 0 ≤ s.openFDTCache f ∧
      loadFileData junk f buf count (wrap32 (numBlocksForFile (s.newFileSize f count) * 1024)) s =
        .ok (data, s₀) ∧
      writeLoop junk f data (wrap32 (numBlocksForFile (s.newFileSize f count) * 1024))
        (s.blocksToWrite f count) 0 ⟨s.iNodes f, none⟩ s₀ = .ok (true, s₁) ∧
      s' = s₁.finishWrite f (s.newFileSize f count) := by
  rcases sfsFwrite_steps h with ⟨hret, -, -⟩ | ⟨g, data, s₀, s₁, done, ha, hload, hloop, hret⟩
  · omega
  · obtain rfl : f = g := Option.some.inj ((slot?_natCast f).symm.trans ha.slot)
    rcases hret with ⟨rfl, -, rfl⟩ | ⟨-, hret, -⟩
    · exact ⟨data, s₀, s₁, ha.isOpen, hload, hloop, rfl⟩
    · omega

/-- The caller's bytes fit into the buffer. -/
theorem loadFileData_fits {capacity : Int}
    (h : loadFileData junk f buf count capacity s = .ok (data, s')) :
    0 < count → s.openFDTCache f + count ≤ capacity := by
  unfold loadFileData at h
  obtain ⟨⟨r₁, s₁⟩, -, h⟩ := ok_bind h
  obtain ⟨⟨r₂, bytes, s₂⟩, -, h⟩ := ok_bind h
  dsimp only at h
  split at h
  · cases h
  · obtain ⟨⟨r₃, s₃⟩, -, h⟩ := ok_bind h
    dsimp only at h
    split at h
    · cases h
    · omega

theorem finishWrite_only_sameBlocks (fileSize : Int) (hs : Owned (s.only f)) :
    SameBlocks (s.only f) ((s.finishWrite f fileSize).only f) := by
  refine .of_frame hs.toNoSharing (fun g => ?_) (fun g => ?_) (fun g c hc => ?_) ?_
  · by_cases hg : g = f
    · subst hg
      rw [iNodes_only, iNodes_only, iNodes_finishWrite, if_pos rfl]
    · rw [iNodes_only_other hg, iNodes_only_other hg]
  · by_cases hg : g = f
    · subst hg
      rw [iNodes_only, iNodes_only, iNodes_finishWrite, if_pos rfl]
    · rw [iNodes_only_other hg, iNodes_only_other hg]
  · have := c.isLt
    rw [disk_only, disk_only]
    exact block_finishWrite (by omega) (hs.indirect_not_reserved hc)
  · rw [freeBlockListCache_only, freeBlockListCache_only]
    simp [finishWrite]

/-- What a write that went through has made of its file. -/
structure Written (f : Fin 300) (buf : Mem) (count : Int) (s s' : Sfs) : Prop where
  within : s.openFDTCache f + count ≤ 268 * 1024
  size : (s'.iNodes f).size = max (s.iNodes f).size (s.openFDTCache f + count)
  position : s'.openFDTCache f = max (s.iNodes f).size (s.openFDTCache f + count)
  owns : OwnsBlocks s' f
  backed : Backed s' f
  contents : Backed s f → s'.contents f =
    splice (s.contents f) (s.openFDTCache f).toNat (buf.slice 0 count.toNat)

/-- The spec of a successful write, on a file whose blocks are its own. -/
theorem sfsFwrite_written (hs : OwnsBlocks s f) (hle : s.openFDTCache f ≤ (s.iNodes f).size)
    (hcount : 0 ≤ count) (h : sfsFwrite junk (f : Nat) buf count s = .ok (count, s')) :
    Written f buf count s s' := by
  obtain ⟨data, s₀, s₁, hopen, hload, hloop, rfl⟩ := sfsFwrite_done hcount h
  have howned := ownsBlocks_iff.mp hs
  have hfit := loadFileData_fits hload
  have hload' := loadFileData_only hload
  have hloop' := writeLoop_only hloop
  have hre := loadFileData_rereads hload'
  have ht := Tracks.start (s₀.only f) f
  rw [iNodes_only, ← iNodes_only s₀, hre.iNodes, iNodes_only] at ht
  obtain ⟨m, t, hm, hP, hend⟩ := writeLoop_cases (hre.sameBlocks.owned howned) ht hloop'
  obtain ⟨rfl, rfl⟩ : m = s.blocksToWrite f count ∧ s₁.only f = t := by
    rcases hend with ⟨-, hm, hs₁⟩ | ⟨hfalse, -, -⟩
    · exact ⟨hm, hs₁⟩
    · cases hfalse
  -- The size is that of a file, so nothing has wrapped around.
  have hwithin : s.blocksToWrite f count ≤ 268 := by
    by_cases hn0 : 0 < s.blocksToWrite f count
    · have := hP.within hn0
      omega
    · omega
  have hgrows : (s.iNodes f).size ≤ s.newFileSize f count := by
    unfold newFileSize
    split <;> omega
  have hblocks := numBlocksForFile_eq (show 0 ≤ s.newFileSize f count by omega)
  have hn : s.blocksToWrite f count = (numBlocksForFile (s.newFileSize f count)).toNat := rfl
  have hcap : wrap32 (numBlocksForFile (s.newFileSize f count) * 1024) =
      numBlocksForFile (s.newFileSize f count) * 1024 := wrap32_of_range ⟨by omega, by omega⟩
  rw [hcap] at hfit hload'
  have hend : s.openFDTCache f + count ≤ 268 * 1024 := by
    by_cases h0 : 0 < count
    · have := hfit h0
      omega
    · omega
  have hnew := newFileSize_eq hcount hopen (show s.openFDTCache f + count < 2147483648 by omega)
  have hsame := finishWrite_only_sameBlocks (s.newFileSize f count) hP.owned
  have hsize : ((s₁.finishWrite f (s.newFileSize f count)).iNodes f).size =
      s.newFileSize f count := by rw [iNodes_finishWrite, if_pos rfl]
  refine ⟨by omega, hsize.trans hnew, ?_, ownsBlocks_iff.mpr (hsame.owned hP.owned), ?_,
    fun hb => ?_⟩
  · rw [← hnew]
    simp [finishWrite]
  · refine ⟨by omega, by omega, ?_⟩
    intro k hk
    rw [hsize] at hk
    rw [← blockPointer_congr (pointer_only _ f), hsame.blockPointer]
    exact hP.there k (Nat.zero_le k) (by omega)
  · have hnew' : s.newFileSize f count =
        max ((s.only f).iNodes f).size ((s.only f).openFDTCache f + count) := by
      rw [iNodes_only, openFDTCache_only]
      exact hnew
    have hcontents : ((s₁.finishWrite f (s.newFileSize f count)).only f).contents f = _ :=
      contents_of_buffer (s := s.only f) howned.toNoSharing
      (backed_only.mpr hb) (by rwa [openFDTCache_only])
      (by rwa [openFDTCache_only, iNodes_only]) hcount
      hnew' (by omega) hload'
      (by rw [iNodes_only]; exact hsize) fun i hi => ?_
    · rwa [contents_only, contents_only, openFDTCache_only] at hcontents
    · have hne : (s₁.only f).blockPointer f (i / 1024) ≠ -1 :=
        hP.there _ (Nat.zero_le _) (by omega)
      obtain ⟨hlt, -⟩ := hP.owned.blockPointer_lt hne
      rw [← hP.byteAt (show i / 1024 < s.blocksToWrite f count by omega), byteAt, byteAt,
        hsame.blockPointer, disk_only, disk_only,
        block_finishWrite (by omega) (hP.owned.blockPointer_not_reserved hne)]

end OsConcepts.Sfs
