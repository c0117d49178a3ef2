import OsConcepts.Proofs.NewFile

/-!
# What a call touches

Whatever the state is, isolated or not, the calls that work on one file leave
the i-nodes and the descriptors of the other slots in the caches alone
(`Touches`); the disk is another matter. The directory changes only where a
file is created or removed.
-/

namespace OsConcepts.Sfs

open OsConcepts

variable {s s' s'' : Sfs} {f g : Fin 300} {junk buf data : Mem} {fd count ret : Int}
  {fname : CString}

/-- The i-node and the descriptor of `f` are the only ones that may have
changed, and the directory is as it was. -/
structure Touches (f : Fin 300) (s s' : Sfs) : Prop where
  iNodes : ∀ g, g ≠ f → s'.iNodes g = s.iNodes g
  descriptors : ∀ g, g ≠ f → s'.openFDTCache g = s.openFDTCache g
  directory : s'.rootDirectoryCache = s.rootDirectoryCache

theorem Touches.refl (f : Fin 300) (s : Sfs) : Touches f s s :=
  ⟨fun _ _ => rfl, fun _ _ => rfl, rfl⟩

theorem Touches.trans (h : Touches f s s') (h' : Touches f s' s'') : Touches f s s'' where
  iNodes g hg := (h'.iNodes g hg).trans (h.iNodes g hg)
  descriptors g hg := (h'.descriptors g hg).trans (h.descriptors g hg)
  directory := h'.directory.trans h.directory

theorem Touches.setINode (f : Fin 300) (s : Sfs) (node : INode) :
    Touches f s (s.setINode f node) where
  iNodes g hg := by rw [iNodes_setINode, if_neg hg]
  descriptors _ _ := rfl
  directory := rfl

theorem Touches.setReadWritePointer (f : Fin 300) (s : Sfs) (q : Int) :
    Touches f s (s.setReadWritePointer f q) where
  iNodes _ _ := rfl
  descriptors g hg := by rw [openFDTCache_setReadWritePointer, if_neg hg]
  directory := rfl

theorem Touches.writeBlocks (f : Fin 300) (s : Sfs) (a n : Int) (buffer : Mem) :
    Touches f s (s.writeBlocks a n buffer) :=
  ⟨fun _ _ => rfl, fun _ _ => rfl, rfl⟩

theorem Touches.readBlocks (f : Fin 300) (s : Sfs) (a n : Int) (buffer : Mem) :
    Touches f s (s.readBlocks junk a n buffer).2 :=
  ⟨fun _ _ => rfl, fun _ _ => rfl, rfl⟩

theorem Rereads.touches (h : Rereads f s s') : Touches f s s' := by
  obtain ⟨p, q, rfl⟩ := h
  have hseek : Touches f s (s.seek p) := ⟨fun _ _ => rfl, fun _ _ => rfl, rfl⟩
  exact hseek.trans (.setReadWritePointer f (s.seek p) q)

/-! ## The loop of `sfs_fwrite` -/

/-- The loop keeps all descriptors and, of its own i-node, the size. -/
structure LoopTouches (f : Fin 300) (s s' : Sfs) : Prop extends Touches f s s' where
  positions : s'.openFDTCache = s.openFDTCache
  size : (s'.iNodes f).size = (s.iNodes f).size

theorem LoopTouches.refl (f : Fin 300) (s : Sfs) : LoopTouches f s s :=
  ⟨.refl f s, rfl, rfl⟩

theorem LoopTouches.trans (h : LoopTouches f s s') (h' : LoopTouches f s' s'') :
    LoopTouches f s s'' :=
  ⟨h.toTouches.trans h'.toTouches, h'.positions.trans h.positions, h'.size.trans h.size⟩

theorem LoopTouches.setINode (f : Fin 300) {s : Sfs} {node : INode}
    (hsize : node.size = (s.iNodes f).size) : LoopTouches f s (s.setINode f node) :=
  ⟨.setINode f s node, rfl, by rw [iNodes_setINode, if_pos rfl, hsize]⟩

theorem LoopTouches.writeBlocks (f : Fin 300) (s : Sfs) (a n : Int) (buffer : Mem) :
    LoopTouches f s (s.writeBlocks a n buffer) :=
  ⟨.writeBlocks f s a n buffer, rfl, rfl⟩

theorem LoopTouches.readBlocks (f : Fin 300) (s : Sfs) (a n : Int) (buffer : Mem) :
    LoopTouches f s (s.readBlocks junk a n buffer).2 :=
  ⟨.readBlocks f s a n buffer, rfl, rfl⟩

theorem allocateBlock_touches (f : Fin 300) (s : Sfs) : LoopTouches f s s.allocateBlock.2 := by
  unfold allocateBlock
  cases Fin.find? fun i => s.freeBlockListCache i != 0 with
  | none => exact .refl f s
  | some i => exact ⟨⟨fun _ _ => rfl, fun _ _ => rfl, rfl⟩, rfl, rfl⟩

theorem createIndirect_touches (l : WriteLocals) (s : Sfs) :
    LoopTouches f s (createIndirect f l s).2.2 := by
  unfold createIndirect
  dsimp only
  have h₁ := allocateBlock_touches f s
  have h₂ : LoopTouches f s.allocateBlock.2 (s.allocateBlock.2.setINode f
      { s.allocateBlock.2.iNodes f with indirectPointer := s.allocateBlock.1 }) := .setINode f rfl
  have h₃ := allocateBlock_touches f (s.allocateBlock.2.setINode f
    { s.allocateBlock.2.iNodes f with indirectPointer := s.allocateBlock.1 })
  exact ((h₁.trans h₂).trans h₃).trans (.writeBlocks f _ _ _ _)

theorem loadIndirectForWrite_touches (l : WriteLocals) (s : Sfs) :
    LoopTouches f s (loadIndirectForWrite junk l s).2.2 := by
  unfold loadIndirectForWrite
  cases l.indirectBlock with
  | none => exact .readBlocks f s _ _ _
  | some ib => exact .refl f s

theorem chooseBlock_touches (k : Nat) (l : WriteLocals) (s : Sfs) :
    LoopTouches f s (chooseBlock junk f k l s).2.2 := by
  unfold chooseBlock
  by_cases hk : k < 12
  · rw [dif_pos hk]
    dsimp only
    split
    · exact (allocateBlock_touches f s).trans (.setINode f rfl)
    · exact .refl f s
  · rw [dif_neg hk]
    split
    · exact createIndirect_touches l s
    · have hload : LoopTouches f s (loadIndirectForWrite junk l s).2.2 :=
        loadIndirectForWrite_touches l s
      revert hload
      generalize loadIndirectForWrite junk l s = x
      obtain ⟨indirectBlock, l', s₁⟩ := x
      intro hload
      dsimp only at hload ⊢
      split
      · split
        · exact (hload.trans (allocateBlock_touches f s₁)).trans (.writeBlocks f _ _ _ _)
        · exact hload
      · exact hload

theorem writeLoop_touches {capacity : Int} : ∀ {n k : Nat} {l : WriteLocals} {s : Sfs} {b : Bool},
    writeLoop junk f data capacity n k l s = .ok (b, s') → LoopTouches f s s' := by
  intro n
  induction n with
  | zero =>
      intro k l s b h
      cases h
      exact .refl f s'
  | succ n ih =>
      intro k l s b h
      have hchoose : LoopTouches f s (chooseBlock junk f k l s).2.2 := chooseBlock_touches k l s
      rw [writeLoop] at h
      revert hchoose h
      generalize chooseBlock junk f k l s = x
      obtain ⟨o, l', s₁⟩ := x
      intro h hchoose
      cases o with
      | none =>
          cases h
          exact hchoose
      | some block =>
          dsimp only at h
          split at h
          · cases h
            exact hchoose
          · split at h
            · cases h
            · exact (hchoose.trans (.writeBlocks f s₁ _ _ _)).trans (ih h)

/-! ## The calls -/

theorem finishWrite_touches (s : Sfs) (f : Fin 300) (fileSize : Int) :
    Touches f s (s.finishWrite f fileSize) :=
  ((Touches.setReadWritePointer f s fileSize).trans
    (.setINode f _ { s.iNodes f with size := fileSize })).trans (.writeBlocks f _ 1 12 _)

/-- A write is refused and changes nothing, or touches the file it is meant
for. -/
theorem sfsFwrite_touches (h : sfsFwrite junk fd buf count s = .ok (ret, s')) :
    ret = -1 ∧ s' = s ∧ (∀ f, ¬ Accepts s fd buf count f) ∨
    ∃ f, Accepts s fd buf count f ∧ Touches f s s' := by
  rcases sfsFwrite_steps h with hrefused | ⟨f, data, s₀, s₁, done, ha, hload, hloop, hret⟩
  · exact Or.inl hrefused
  · have htouch := (loadFileData_rereads hload).touches.trans (writeLoop_touches hloop).toTouches
    rcases hret with ⟨-, -, rfl⟩ | ⟨-, -, rfl⟩
    · exact Or.inr ⟨f, ha, htouch.trans (finishWrite_touches s₁ f _)⟩
    · exact Or.inr ⟨f, ha, htouch⟩

/-- A slot a name is found in is in use. -/
theorem live_of_findName (hlen : badLength (wrap32 fname.length) = false)
    (h : findName fname s = some f) : s.Live f := by
  cases hbytes : fname.bytes with
  | nil =>
      rw [CString.length, hbytes] at hlen
      exact absurd hlen (by decide)
  | cons b bs =>
      have hb : b ≠ 0 := fname.no_nul b (by rw [hbytes]; exact List.mem_cons_self)
      intro hfree
      have hcmp := (Fin.find?_eq_some_iff.mp h).1
      rw [hbytes, strcmpEq, image_filename_zero, hfree] at hcmp
      simp only [Bool.and_eq_true, beq_iff_eq] at hcmp
      exact hb hcmp.1.symm

theorem openFDTCache_eraseFile (s : Sfs) (f g : Fin 300) (fl : Block) (p : Nat) :
    (s.eraseFile f fl p).openFDTCache g = if g = f then -1 else s.openFDTCache g := by
  unfold eraseFile
  simp only [openFDTCache_writeINodeTable, openFDTCache_writeFreeBlockList,
    openFDTCache_writeRootDirectory, openFDTCache_setFilename,
    openFDTCache_setReadWritePointer, openFDTCache_setINode]
  rfl

/-! ## Descriptors stay open -/

/-- The same descriptors are open. -/
def SameOpen (s s' : Sfs) : Prop := ∀ g, 0 ≤ s'.openFDTCache g ↔ 0 ≤ s.openFDTCache g

theorem SameOpen.refl (s : Sfs) : SameOpen s s := fun _ => Iff.rfl

theorem SameOpen.trans (h : SameOpen s s') (h' : SameOpen s' s'') : SameOpen s s'' :=
  fun g => (h' g).trans (h g)

theorem SameOpen.move {q : Int} (hopen : 0 ≤ s.openFDTCache f) (hq : 0 ≤ q) :
    SameOpen s (s.setReadWritePointer f q) := by
  intro g
  rw [openFDTCache_setReadWritePointer]
  split
  · next h =>
      rw [h]
      exact iff_of_true hq hopen
  · exact Iff.rfl

theorem sfsFseek_sameOpen {loc : Int} (h : sfsFseek fd loc s = .ok (ret, s')) :
    SameOpen s s' := by
  unfold sfsFseek at h
  split at h
  · cases h
    exact .refl s
  · split at h
    · cases h
    · split at h
      · cases h
        exact .refl s
      · split at h
        · cases h
          exact .refl s
        · cases h
          exact .move (by omega) (by omega)

/-- A read ends within its buffer, so the position it leaves is no less than
zero. -/
theorem sfsFread_sameOpen {bytes : List Byte}
    (h : sfsFread junk fd count s = .ok (ret, bytes, s')) :
    SameOpen s s' := by
  unfold sfsFread at h
  split at h
  · cases h
    exact .refl s
  · split at h
    · cases h
      exact .refl s
    · next f hf =>
        dsimp only at h
        split at h
        · cases h
          exact .refl s
        · next hopen =>
            split at h
            · cases h
            · split at h
              · cases h
                exact fun _ => Iff.rfl
              · generalize (if (s.iNodes f).size < wrap32 (s.openFDTCache f + count) then
                  wrap32 ((s.iNodes f).size - s.openFDTCache f) else count) = bytesToRead at h
                split at h
                · cases h
                · next hroom =>
                    cases h
                    have hcap := (wrap32_range (numBlocksForFile (s.iNodes f).size * 1024)).2
                    rw [wrap32_of_range ⟨by omega, by omega⟩]
                    have hdisk : ∀ d, SameOpen s { s with disk := d } := fun _ _ => Iff.rfl
                    exact (hdisk _).trans
                      (.move (show 0 ≤ s.openFDTCache f by omega) (by omega))

theorem loadFileData_sameOpen {capacity : Int}
    (h : loadFileData junk f buf count capacity s = .ok (data, s')) : SameOpen s s' := by
  unfold loadFileData at h
  obtain ⟨⟨r₁, s₁⟩, h₁, h⟩ := ok_bind h
  obtain ⟨⟨r₂, bytes, s₂⟩, h₂, h⟩ := ok_bind h
  dsimp only at h
  split at h
  · cases h
  · obtain ⟨⟨r₃, s₃⟩, h₃, h⟩ := ok_bind h
    dsimp only at h
    split at h
    · cases h
    · cases h
      exact ((sfsFseek_sameOpen h₁).trans (sfsFread_sameOpen h₂)).trans (sfsFseek_sameOpen h₃)

/-- So does a write to a file of a size that is one, and the size stays one. -/
theorem sfsFwrite_sameOpen (hsize : ∀ f, Accepts s fd buf count f → 0 ≤ (s.iNodes f).size)
    (h : sfsFwrite junk fd buf count s = .ok (ret, s')) :
    SameOpen s s' ∧ ∀ f, Accepts s fd buf count f → 0 ≤ (s'.iNodes f).size := by
  rcases sfsFwrite_steps h with ⟨-, rfl, hno⟩ | ⟨f, data, s₀, s₁, done, ha, hload, hloop, hret⟩
  · exact ⟨.refl s', fun f ha => absurd ha (hno f)⟩
  · have hone : ∀ g, Accepts s fd buf count g → g = f := fun g hg => ha.unique hg
    have hloaded := loadFileData_sameOpen hload
    have htouch := writeLoop_touches (f := f) hloop
    have hsize₀ := hsize f ha
    have hkept : SameOpen s s₁ := by
      intro g
      rw [htouch.positions]
      exact hloaded g
    rcases hret with ⟨-, -, rfl⟩ | ⟨-, -, rfl⟩
    · have hnew : 0 ≤ s.newFileSize f count := by
        unfold newFileSize
        split <;> omega
      refine ⟨fun g => ?_, fun g hg => ?_⟩
      · rw [finishWrite, openFDTCache_writeINodeTable, openFDTCache_setINode,
          openFDTCache_setReadWritePointer]
        split
        · next hg =>
            rw [hg]
            exact iff_of_true hnew ha.isOpen
        · exact hkept g
      · rw [hone g hg, iNodes_finishWrite, if_pos rfl]
        exact hnew
    · refine ⟨hkept, ?_⟩
      intro g hg
      rw [hone g hg, htouch.size, (loadFileData_rereads hload).iNodes]
      exact hsize₀

/-! ## Closed descriptors -/

theorem sfsFseek_closed {loc : Int} (hf : slot? fd = some f) (hclosed : s.openFDTCache f < 0)
    (h : sfsFseek fd loc s = .ok (ret, s')) : ret = -1 ∧ s' = s := by
  unfold sfsFseek at h
  split at h
  · cases h
    exact ⟨rfl, rfl⟩
  · rw [hf] at h
    dsimp only at h
    split at h
    · cases h
      exact ⟨rfl, rfl⟩
    · cases h
      exact ⟨rfl, rfl⟩

theorem sfsFread_closed (hf : slot? fd = some f) (hclosed : s.openFDTCache f < 0) :
    sfsFread junk fd count s = .ok (-1, [], s) := by
  unfold sfsFread
  split
  · rfl
  · rw [hf]
    dsimp only
    rw [if_pos hclosed]

/-! ## Every call -/

/-- What a call that came back has done, by the call and its result. -/
inductive Effect (s : Sfs) : Call → Int → Sfs → Prop
  | opened {fname : CString} {f : Fin 300} : badLength (wrap32 fname.length) = false →
      findName fname s = some f →
      Effect s (.fopen fname) (f : Nat) (s.setReadWritePointer f (s.iNodes f).size)
  | created {fname : CString} {f : Fin 300} : badLength (wrap32 fname.length) = false →
      findName fname s = none → findEmpty s = some f →
      Effect s (.fopen fname) (f : Nat) (s.createFile f fname)
  | notOpened {fname : CString} : Effect s (.fopen fname) (-1) s
  | closed {fd : Int} {f : Fin 300} : slot? fd = some f → 0 ≤ s.openFDTCache f →
      Effect s (.fclose fd) 0 (s.setReadWritePointer f (-1))
  | notClosed {fd : Int} : (∀ f, slot? fd = some f → s.openFDTCache f < 0) →
      Effect s (.fclose fd) (-1) s
  | sought {fd loc ret : Int} {s' : Sfs} :
      s' = s ∨ (∃ f, slot? fd = some f ∧ 0 ≤ s.openFDTCache f ∧ Rereads f s s') →
      SameOpen s s' → Effect s (.fseek fd loc) ret s'
  | read {junk : Mem} {fd count ret : Int} {s' : Sfs} :
      s' = s ∨ (∃ f, slot? fd = some f ∧ 0 ≤ s.openFDTCache f ∧ Rereads f s s') →
      SameOpen s s' → Effect s (.fread junk fd count) ret s'
  | written {junk buf : Mem} {fd count ret : Int} {s' : Sfs} :
      sfsFwrite junk fd buf count s = .ok (ret, s') → Effect s (.fwrite junk fd buf count) ret s'
  | listed {m : Mem} {ret l : Int} {n : Nat} : n ≤ 5 → badLength (intStrlen m) = false →
      Effect s (.getnextfilename m) ret (s.saveLocation l n)
  | notListed {m : Mem} {ret : Int} : Effect s (.getnextfilename m) ret s
  | sized {path : CString} {ret : Int} : Effect s (.getfilesize path) ret s
  | removed {junk : Mem} {fname : CString} {f : Fin 300} {fl : Block} {p : Nat} :
      badLength (wrap32 fname.length) = false → findName fname s = some f →
      Effect s (.remove junk fname) 0 (s.eraseFile f fl p)
  | notRemoved {junk : Mem} {fname : CString} : Effect s (.remove junk fname) (-1) s

/-- One case for everything a step can do, whatever the state. -/
theorem exec_effect {c : Call} (h : c.exec s = .ok (ret, s')) : Effect s c ret s' := by
  cases c with
  | fopen fname =>
      rcases sfsFopen_cases (Except.ok.inj h) with
        ⟨rfl, rfl⟩ | ⟨f, hlen, hname, rfl, rfl⟩ | ⟨f, hlen, hname, hempty, rfl, rfl⟩
      · exact .notOpened
      · exact .opened hlen hname
      · exact .created hlen hname hempty
  | fclose fd =>
      have h : sfsFclose fd s = (ret, s') := Except.ok.inj h
      unfold sfsFclose at h
      split at h
      · next hslot =>
          cases h
          exact .notClosed fun f hf => by rw [hf] at hslot; cases hslot
      · next f hslot =>
          split at h
          · next hclosed =>
              cases h
              exact .notClosed fun g hg => Option.some.inj (hslot.symm.trans hg) ▸ hclosed
          · cases h
            exact .closed hslot (by omega)
  | fseek fd loc =>
      refine .sought ?_ (sfsFseek_sameOpen h)
      rcases sfsFseek_rereads h with rfl | ⟨f, hf, rfl⟩
      · exact Or.inl rfl
      · by_cases hopen : 0 ≤ s.openFDTCache f
        · exact Or.inr ⟨f, hf, hopen, .move f s loc⟩
        · exact Or.inl (sfsFseek_closed hf (by omega) h).2
  | fread junk fd count =>
      obtain ⟨⟨r, bytes, s₁⟩, hread, h⟩ := ok_bind h
      obtain ⟨-, rfl⟩ := Prod.mk.inj (Except.ok.inj h)
      refine .read ?_ (sfsFread_sameOpen hread)
      rcases sfsFread_rereads hread with rfl | ⟨f, hf, hre⟩
      · exact Or.inl rfl
      · by_cases hopen : 0 ≤ s.openFDTCache f
        · exact Or.inr ⟨f, hf, hopen, hre⟩
        · rw [sfsFread_closed hf (by omega)] at hread
          exact Or.inl (congrArg (fun r => r.2.2) (Except.ok.inj hread)).symm
  | fwrite junk fd buf count => exact .written h
  | getnextfilename m =>
      rcases hr : sfsGetnextfilename m s with ⟨r, m', s₁⟩
      simp only [Call.exec, hr] at h
      obtain ⟨-, rfl⟩ := Prod.mk.inj (Except.ok.inj h)
      rcases sfsGetnextfilename_cases hr with rfl | ⟨hlen, l, n, hn, rfl⟩
      · exact .notListed
      · exact .listed hn hlen
  | getfilesize path =>
      simp only [Call.exec, Except.ok.injEq, Prod.mk.injEq] at h
      obtain ⟨-, rfl⟩ := h
      exact .sized
  | remove junk fname =>
      simp only [Call.exec] at h
      rcases sfsRemove_steps h with
        ⟨rfl, rfl, -⟩ | ⟨f, fl₁, fl, p, hlen, hname, rfl, rfl, -, -⟩
      · exact .notRemoved
      · exact .removed hlen hname

end OsConcepts.Sfs
