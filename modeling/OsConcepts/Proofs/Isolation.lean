import OsConcepts.Proofs.Sharing

/-!
# How far the metadata is isolated

`mksfs` marks the eighteen lowest blocks and the free list's as occupied. The
root directory it saves at 301, which stays free, so a file is given that block
once the 283 blocks in between are used up. Up to then every pointer stays
below 301 and all metadata is isolated: `Fits 301` says of a call that the
blocks it asks for can still be had below 301, and along calls that fit no
pointer gets there.
-/

namespace OsConcepts.Sfs

open OsConcepts

variable {s s' : Sfs} {f g : Fin 300} {c : Call} {ret : Int}

theorem freeCell_eq_true (s : Sfs) (i : Fin 1024) : s.freeCell i = true ↔ ¬ s.ledger.busy i := by
  simp [freeCell, ledger]

/-- Blocks given out while enough are free below a bound lie below it. -/
theorem Progress.pointer_below {n bound : Nat} {data : Mem} (h : Progress f 0 n data s s')
    (hfit : s.missing f 0 n ≤ s.freeBelow bound) {g : Fin 300} {r : Ref} {b : Fin 1024}
    (hb : s'.pointer g r = (b : Nat)) : s.pointer g r = (b : Nat) ∨ b.val < bound := by
  rcases h.ext.acquires.fresh (i := (g, r)) hb with hold | hfree
  · exact Or.inl hold
  · refine Or.inr ?_
    by_contra hge
    have hstill : s'.freeCell b = true := by
      refine FirstFit.free_of_covered (k := bound)
        (fun i hi => ?_) hfit (h.count bound) (h.count 1024) (by omega)
        ((freeCell_eq_true s b).mpr hfree)
      rw [freeCell_eq_true] at hi ⊢
      exact fun hbusy => hi ((h.ext.acquires.marks i).mpr (Or.inl hbusy))
    exact (freeCell_eq_true s' b).mp hstill (h.owned.sound.accounted (i := (g, r)) hb)

theorem freeBelow_mono {k k' : Nat} (h : k ≤ k') : s.freeBelow k ≤ s.freeBelow k' :=
  FirstFit.freeBelow_mono h

/-- A write that fits is refused, goes through, or runs into the last pointer. -/
theorem WriteOutcome.progress_of_fits {n bound : Nat} {data : Mem} {fileSize count : Int}
    (h : WriteOutcome f n data fileSize count s ret s')
    (hfit : s.missing f 0 (min n 268) ≤ s.freeBelow bound) (hbound : bound ≤ 1024) :
    ∃ m s₁, m ≤ min n 268 ∧ Progress f 0 m data s s₁ ∧
      (m = n ∧ ret = count ∧ s' = s₁.finishWrite f fileSize ∨
        268 < n ∧ m = 268 ∧ ret = -1 ∧ ∃ p, s' = s₁.seek p) := by
  cases h with
  | @done s₁ hP =>
      have hn : n ≤ 268 := by
        by_cases hn0 : 0 < n
        · have := hP.within hn0
          omega
        · omega
      exact ⟨n, s₁, by omega, hP, Or.inl ⟨rfl, rfl, rfl⟩⟩
  | @stopped m s₁ s' hm hP hstop =>
      have hm268 : ¬ m < 268 := by
        intro hlt
        have hshort := hstop.short hP hlt
        have hmono := missing_mono (s := s) (f := f) (k := 0) (m := m + 1) (n := min n 268)
          (by omega)
        have := freeBelow_mono (s := s) hbound
        omega
      have hle : m ≤ 268 := by
        have := hP.within (by omega)
        omega
      cases hstop with
      | past p hk => exact ⟨m, s₁, by omega, hP, Or.inr ⟨by omega, by omega, rfl, p, rfl⟩⟩
      | full hk => omega
      | stray hk => omega

/-- Every pointer lies below the directory. -/
structure Low (s : Sfs) : Prop extends Owned s where
  below : ∀ f r, s.pointer f r < 301

theorem Low.isolated (h : Low s) : Isolated s where
  toOwned := h.toOwned
  directory f r b hb hd := by
    have := h.below f r
    unfold DirectoryBlock at hd
    omega

theorem Fresh.low (h : Fresh s) : Low s where
  toOwned := h.owned
  below f r := by rw [h.pointer]; omega

theorem SameBlocks.low (h : SameBlocks s s') (hs : Low s) : Low s' where
  toOwned := h.owned hs.toOwned
  below f r := by rw [h.pointer]; exact hs.below f r

theorem Progress.low {n : Nat} {data : Mem} (h : Progress f 0 n data s s') (hs : Low s)
    (hfit : s.missing f 0 n ≤ s.freeBelow 301) : Low s' where
  toOwned := h.owned
  below g r := by
    by_cases hne : s'.pointer g r = -1
    · omega
    · obtain ⟨b, hb, -⟩ := h.owned.nat_of_pointer hne
      have hlow := hs.below g r
      rcases h.pointer_below hfit hb with hold | hlt
      · omega
      · omega

/-- A call that fits keeps every pointer below the directory. -/
theorem exec_low (hs : Low s) (hfit : Fits 301 s c) (h : c.exec s = .ok (ret, s')) : Low s' := by
  rcases exec_cases hs.toOwned (fun _ => hs.isolated.indirectApart) h with
    hsame | ⟨_, _, f, fl, p, -, -, -, hd, rfl, hfl⟩ | ⟨junk, fd, buf, count, rfl, hwrite⟩
  · exact hsame.low hs
  · refine ⟨eraseFile_owned hs.toOwned hd hfl, ?_⟩
    intro g r
    by_cases hg : g = f
    · rw [hg, pointer_eraseFile_self]
      omega
    · rw [pointer_eraseFile_other hs.toOwned hd hg]
      exact hs.below g r
  · rcases sfsFwrite_cases hs.toOwned hwrite with
      ⟨-, rfl, -⟩ | ⟨f, data, s₀, ha, hload, hout⟩
    · exact hs
    · have hsame := (loadFileData_rereads hload).sameBlocks
      have hfit' : s₀.missing f 0 (min (s.blocksToWrite f count) 268) ≤ s₀.freeBelow 301 := by
        rw [hsame.missing, hsame.freeBelow]
        exact hfit f ha
      obtain ⟨m, s₁, hm, hP, hend⟩ := hout.progress_of_fits hfit' (by omega)
      have hlow := hP.low (hsame.low hs)
        (Nat.le_trans (missing_mono hm) hfit')
      rcases hend with ⟨-, -, rfl⟩ | ⟨-, -, -, p, rfl⟩
      · exact (finishWrite_sameBlocks hP.owned _).low hlow
      · exact (Rereads.seek f s₁ p).sameBlocks.low hlow

/-- The calls that find the blocks they ask for below the directory. -/
def fitting : System Sfs (Call × Int) := system.guard fun s x => Fits 301 s x.1

theorem fitting_low (h : fitting.Reachable s) : Low s := by
  refine System.Reachable.invariant (I := Low) ?_ ?_ h
  · rintro s ⟨junk, s₀, rfl⟩
    exact (mksfs_fresh junk s₀).low
  · rintro s x s' hs ⟨hfit, hstep⟩
    exact exec_low hs hfit hstep

/-- No i-node refers to a block the code saves metadata in. -/
def MetadataIsolated (s : Sfs) : Prop :=
  ∀ f r (b : Fin 1024), s.pointer f r = (b : Nat) → ¬ MetadataBlock b

theorem Low.metadataIsolated (h : Low s) : MetadataIsolated s := by
  intro f r b hb
  have hapart := h.apart f r b hb
  have hdir := h.isolated.directory f r b hb
  unfold Reserved at hapart
  rintro (h | h | h)
  · omega
  · exact hdir h
  · omega

/-- As long as the calls fit below the directory, the metadata is isolated. -/
theorem metadataIsolated_of_fitting (h : fitting.Reachable s) : MetadataIsolated s :=
  (fitting_low h).metadataIsolated

/-- A file of one block is a run that fits. -/
theorem metadataIsolated_after_new_file :
    ∃ s, fitting.Reachable s ∧ s.pointer 0 (.direct 0) ≠ -1 ∧ MetadataIsolated s := by
  have h := formatted_fresh
  have hroom : 1 + 1 ≤ formatted.freeBelow 301 := by
    rw [show 301 = 18 + 283 from rfl, h.freeBelow (by omega)]
    omega
  obtain ⟨t, data, s₀, s₁, hopen, hwrite, hfits, -, hP, -⟩ := new_file_steps (n := 1) (b := 65)
    h.owned h.low.isolated.indirectApart (by decide) (fun g => by rw [h.names]; decide)
    h.findEmpty h.pointer (by omega) (by rw [h.freeBelow_all]; omega)
  have hstart : fitting.Reachable formatted := .start ⟨_, _, rfl⟩
  have hr₁ : fitting.Reachable t :=
    hstart.step (a := (.fopen (letter 65 (by decide)), _)) ⟨trivial, hopen⟩
  have hr₂ : fitting.Reachable (s₁.finishWrite 0 (1 * 1024 : Nat)) :=
    hr₁.step (a := (.fwrite (fun _ => 0) ((0 : Fin 300) : Nat) (fun _ => 0) (1 * 1024 : Nat),
      (1 * 1024 : Nat))) ⟨hfits 301 hroom, hwrite⟩
  refine ⟨_, hr₂, ?_, metadataIsolated_of_fitting hr₂⟩
  rw [(finishWrite_sameBlocks hP.owned _).pointer]
  have hthere := hP.there 0 (by omega) (by omega)
  rwa [blockPointer_eq (by omega), dataRef_direct (by omega)] at hthere

/-! ## Two full files -/

/-- Two files of 268 blocks take 538 blocks, and only 283 are free below the
directory: the second one is given block 301. -/
theorem pointer_reaches_directory :
    ¬ ∀ s, system.Reachable s → MetadataIsolated s := by
  intro hall
  have h := formatted_fresh
  obtain ⟨data₁, t₁, u₁, hr₁, hsame₁, hP₁, hnames₁⟩ := reach_new_file (n := 268) (b := 65)
    formatted_reachable h.owned h.low.isolated.indirectApart (by decide)
    (fun g => by rw [h.names]; decide) h.findEmpty h.pointer (Nat.le_refl _)
    (by rw [h.freeBelow_all]; omega)
  have hmissing₁ : t₁.missing 0 0 268 = 269 :=
    missing_of_no_blocks fun r => by rw [hsame₁.pointer, h.pointer]
  have hlow₁ : Low u₁ := hP₁.low (hsame₁.low h.low) (by
    rw [hmissing₁, hsame₁.freeBelow, show 301 = 18 + 283 from rfl, h.freeBelow (by omega)]
    omega)
  -- The state between the two files.
  generalize hv : u₁.finishWrite 0 (268 * 1024 : Nat) = v at hr₁ hnames₁
  have hsame_v : SameBlocks u₁ v := hv ▸ finishWrite_sameBlocks hlow₁.toOwned _
  have hlow_v := hsame_v.low hlow₁
  have hcount_v : ∀ {d : Nat}, d ≤ 1005 → v.freeBelow (18 + d) = d - 269 := by
    intro d hd
    rw [hsame_v.freeBelow, hP₁.count, hmissing₁, hsame₁.freeBelow, h.freeBelow hd]
  have hall_v : v.freeBelow 1024 = 736 := by
    rw [hsame_v.freeBelow, hP₁.count, hmissing₁, hsame₁.freeBelow, h.freeBelow_all]
  have hnames_v : ∀ g, v.filename g 0 = if g = 0 then 65 else 0 := by
    intro g
    rw [hnames₁, h.names]
  have hpointer_v : ∀ r, v.pointer 1 r = -1 := by
    intro r
    rw [hsame_v.pointer, hP₁.ext.other 1 (by decide), hsame₁.pointer, h.pointer]
  have hempty_v : findEmpty v = some 1 := by
    refine findEmpty_eq_some (fun hl => hl ?_) fun g hg hl => ?_
    · rw [hnames_v]
      decide
    · have hg0 : g = 0 := Fin.ext (by omega)
      rw [hnames_v, if_pos hg0] at hl
      exact absurd hl (by decide)
  have hfree_v : v.freeCell 301 = true := by
    by_contra hbusy
    have h301 : v.freeBelow 301 = 14 := hcount_v (d := 283) (by omega)
    have h302 : v.freeBelow 302 = 15 := hcount_v (d := 284) (by omega)
    have : v.freeBelow 302 = v.freeBelow 301 :=
      FirstFit.freeBelow_eq_of_none_free (by omega) fun i hi hi' => by
        rw [show i = 301 from Fin.ext (Nat.le_antisymm (Nat.le_of_lt_succ hi') hi)]
        simpa using hbusy
    omega
  -- The second file.
  obtain ⟨data₂, t₂, u₂, hr₂, hsame₂, hP₂, -⟩ := reach_new_file (n := 268) (b := 66)
    hr₁ hlow_v.toOwned hlow_v.isolated.indirectApart (by decide)
    (fun g => by rw [hnames_v]; split <;> decide) hempty_v hpointer_v (Nat.le_refl _)
    (by rw [hall_v]; omega)
  have hmissing₂ : t₂.missing 1 0 268 = 269 :=
    missing_of_no_blocks fun r => by rw [hsame₂.pointer, hpointer_v]
  have hnone : u₂.freeBelow 302 = 0 := by
    rw [hP₂.count, hmissing₂, hsame₂.freeBelow, show 302 = 18 + 284 from rfl,
      hcount_v (by omega)]
  have hbusy₂ : u₂.ledger.busy 301 := by
    by_contra hfree
    have := FirstFit.freeBelow_eq_zero.mp hnone 301 (by decide)
    rw [(freeCell_eq_true u₂ 301).mpr hfree] at this
    cases this
  rcases (hP₂.ext.acquires.marks 301).mp hbusy₂ with hold | ⟨⟨f, r⟩, hheld⟩
  · rw [hsame₂.ledger] at hold
    exact (freeCell_eq_true v 301).mp hfree_v hold
  · refine hall _ hr₂ f r 301 ?_ (by decide)
    rw [(finishWrite_sameBlocks hP₂.owned _).pointer]
    exact hheld

end OsConcepts.Sfs
