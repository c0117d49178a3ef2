import OsConcepts.Proofs.SfsChoose

/-!
# The write loop

`Progress f k n buffer s s'` says that the blocks `k` to `k + n - 1` of a file
have been given out and written. Turns make it up one by one (`Progress.cons`),
and a run of the loop is some progress, after which it is done or stops
(`writeLoop_cases`). `missing` adds up what the turns need: the loop gets
through as long as that many blocks are free and the file has pointers.
-/

namespace OsConcepts.Sfs

open OsConcepts

variable {s s' s'' : Sfs} {f g : Fin 300} {k n : Nat} {l l' : WriteLocals}
  {junk chunk buffer : Mem}

/-- Block `j` of a buffer. -/
def piece (buffer : Mem) (j : Nat) : Mem := fun i => buffer (j * 1024 + i)

/-- How many blocks the turns for `n` indexes from `k` on allocate. -/
def missing (s : Sfs) (f : Fin 300) : (k n : Nat) → Nat
  | _, 0 => 0
  | k, n + 1 => s.need f k + missing s f (k + 1) n

theorem missing_congr : ∀ {n k : Nat}, (∀ j, k ≤ j → s'.need f j = s.need f j) →
    s'.missing f k n = s.missing f k n := by
  intro n
  induction n with
  | zero => intro k _; rfl
  | succ n ih =>
      intro k h
      rw [missing, missing, h k (Nat.le_refl _), ih fun j hj => h j (by omega)]

theorem missing_add : ∀ {n k m : Nat},
    s.missing f k (n + m) = s.missing f k n + s.missing f (k + n) m := by
  intro n
  induction n with
  | zero => intro k m; simp [missing]
  | succ n ih =>
      intro k m
      rw [show n + 1 + m = (n + m) + 1 by omega, missing, missing, ih,
        show k + 1 + n = k + (n + 1) by omega]
      omega

/-- `n` turns from index `k` on have gone through. -/
structure Progress (f : Fin 300) (k n : Nat) (buffer : Mem) (s s' : Sfs) : Prop where
  owned : Owned s'
  ext : Extends f s s'
  there : ∀ j, k ≤ j → j < k + n → s'.blockPointer f j ≠ -1
  content : ∀ j, k ≤ j → j < k + n →
    s'.disk.block (s'.blockPointer f j).toNat = fun i : Fin 1024 => piece buffer j i
  rest : ∀ c : Nat, c < 2000 → c ≠ 1023 →
    (∀ j, k ≤ j → j < k + n → s'.blockPointer f j ≠ c) → s'.pointer f .indirect ≠ c →
    s'.disk.block c = s.disk.block c
  same : ∀ j, j < k ∨ k + n ≤ j → s'.blockPointer f j = s.blockPointer f j
  indirect : 12 < k ∨ k + n ≤ 12 → s'.pointer f .indirect = s.pointer f .indirect
  count : ∀ m, s'.freeBelow m = s.freeBelow m - s.missing f k n
  enough : s.missing f k n ≤ s.freeBelow 1024
  within : 0 < n → k + n ≤ 268
  order : ∀ j, k ≤ j → j < k + n → s.blockPointer f j = -1 →
    s.missing f k (j - k) < s.freeBelow ((s'.blockPointer f j).toNat + 1)
  stream : s'.disk.pos =
    if n = 0 then s.disk.pos else ((s'.blockPointer f (k + n - 1)).toNat + 1) * 1024

theorem Progress.refl (hs : Owned s) (f : Fin 300) (k : Nat) (buffer : Mem) :
    Progress f k 0 buffer s s where
  owned := hs
  ext := .refl hs.toNoSharing
  there j h h' := by omega
  content j h h' := by omega
  rest _ _ _ _ _ := rfl
  same _ _ := rfl
  indirect _ := rfl
  count m := by simp [missing]
  enough := by simp [missing]
  within h := by omega
  order j h h' := by omega
  stream := by rw [if_pos rfl]

theorem Owned.pointer_lt (hs : Owned s) {r : Ref} (hne : s.pointer f r ≠ -1) :
    (s.pointer f r).toNat < 1023 ∧ s.pointer f r = ((s.pointer f r).toNat : Int) := by
  obtain ⟨b, hb, -⟩ := hs.nat_of_pointer hne
  have hlt := b.isLt
  have h1023 : b.val ≠ 1023 := fun h => hs.pointer_ne_1023 (hb.trans (by rw [h]))
  rw [hb, Int.toNat_natCast]
  omega

/-- The data blocks and the indirect block of a file are distinct. -/
theorem NoSharing.blockPointer_ne_indirect (hs : NoSharing s) (hne : s.blockPointer f k ≠ -1) :
    s.pointer g .indirect ≠ s.blockPointer f k := by
  intro heq
  have hk : k < 268 := by
    by_contra hk
    exact hne (blockPointer_past (by omega))
  rw [blockPointer_eq hk] at heq hne
  have := hs.eq_of_pointer_eq heq.symm hne
  exact dataRef_ne_indirect hk (congrArg Prod.snd this)

theorem Owned.blockPointer_lt (hs : Owned s) (hne : s.blockPointer f k ≠ -1) :
    (s.blockPointer f k).toNat < 1023 ∧
      s.blockPointer f k = ((s.blockPointer f k).toNat : Int) := by
  have hk : k < 268 := by
    by_contra hk
    exact hne (blockPointer_past (by omega))
  rw [blockPointer_eq hk] at hne ⊢
  exact hs.pointer_lt hne

theorem Owned.blockPointer_not_reserved (hs : Owned s) (hne : s.blockPointer f k ≠ -1) :
    ¬ Reserved (s.blockPointer f k).toNat := by
  obtain ⟨hlt, hnat⟩ := hs.blockPointer_lt hne
  have hk : k < 268 := by
    by_contra hk
    exact hne (blockPointer_past (by omega))
  rw [blockPointer_eq hk] at hlt hnat ⊢
  exact hs.apart f _ ⟨(s.pointer f (dataRef k hk)).toNat, by omega⟩ hnat

theorem Turn.need_eq (h : Turn f k chunk s s') {j : Nat} (hj : j ≠ k) :
    s'.need f j = s.need f j := by
  unfold need
  rw [h.same j hj]
  by_cases h12 : j = 12
  · rw [h.indirect (by omega)]
  · simp only [h12, false_and]

/-- The block a turn gives out was free. -/
theorem Turn.freeCell (h : Turn f k chunk s s') (hk : k < 268) (hnone : s.blockPointer f k = -1) :
    ∃ b : Fin 1024, s'.blockPointer f k = (b : Nat) ∧ s.freeCell b = true := by
  have hthere := h.there
  rw [blockPointer_eq hk] at hnone hthere
  obtain ⟨b, hb, -⟩ := h.owned.nat_of_pointer hthere
  refine ⟨b, by rw [blockPointer_eq hk, hb], ?_⟩
  rcases h.ext.acquires.fresh (i := (f, dataRef k hk)) hb with hold | hfree
  · have hold' : s.pointer f (dataRef k hk) = (b : Nat) := hold
    omega
  · simpa [Sfs.freeCell, ledger] using hfree

/-- One more turn in front. -/
theorem Progress.cons (hT : Turn f k (piece buffer k) s s') (hk : k < 268)
    (hn : s.need f k ≤ s.freeBelow 1024) (hP : Progress f (k + 1) n buffer s' s'') :
    Progress f k (n + 1) buffer s s'' := by
  have hbp : s''.blockPointer f k = s'.blockPointer f k := hP.same k (by omega)
  have hmissing : s'.missing f (k + 1) n = s.missing f (k + 1) n :=
    missing_congr fun j hj => hT.need_eq (by omega)
  have hthere : s''.blockPointer f k ≠ -1 := by rw [hbp]; exact hT.there
  exact
    { owned := hP.owned
      ext := hT.ext.trans hP.ext
      there := by
        intro j hj hj'
        by_cases hjk : j = k
        · rw [hjk]; exact hthere
        · exact hP.there j (by omega) (by omega)
      content := by
        intro j hj hj'
        by_cases hjk : j = k
        · -- Later turns write their own blocks and the indirect block only.
          subst hjk
          obtain ⟨hlt, hnat⟩ := hP.owned.blockPointer_lt hthere
          rw [hP.rest _ (by omega) (by omega) (fun i hi _ heq => ?_) (fun heq => ?_), hbp]
          · exact hT.content
          · have := (hP.owned.eq_of_blockPointer_eq (hnat.trans heq.symm) hthere).2
            omega
          · exact hP.owned.blockPointer_ne_indirect hthere (heq.trans hnat.symm)
        · exact hP.content j (by omega) (by omega)
      rest := by
        intro c hc hc' hne hind
        refine (hP.rest c hc hc' (fun j hj hj' => hne j (by omega) (by omega)) hind).trans
          (hT.rest c hc hc' ?_ fun heq => hind ?_)
        · rw [← hbp]
          exact hne k (by omega) (by omega)
        · rw [hP.ext.keeps _ (by omega), heq]
      same := fun j hj => (hP.same j (by omega)).trans (hT.same j (by omega))
      indirect := fun h => (hP.indirect (by omega)).trans (hT.indirect (by omega))
      count := by
        intro m
        rw [hP.count, hT.count, hmissing, missing]
        omega
      enough := by
        have := hP.enough
        rw [hmissing, hT.count] at this
        rw [missing]
        omega
      within := by
        intro _
        by_cases hn0 : 0 < n
        · have := hP.within hn0
          omega
        · omega
      order := by
        intro j hj hj' hnone
        by_cases hjk : j = k
        · subst hjk
          obtain ⟨b, hb, hfree⟩ := hT.freeCell hk hnone
          rw [hbp, hb, Int.toNat_natCast, Nat.sub_self]
          exact FirstFit.freeBelow_pos (Nat.lt_succ_self b) hfree
        · have hord := hP.order j (by omega) (by omega) (by rw [hT.same j hjk, hnone])
          have hlater : s'.missing f (k + 1) (j - (k + 1)) = s.missing f (k + 1) (j - (k + 1)) :=
            missing_congr fun i hi => hT.need_eq (by omega)
          rw [hlater, hT.count] at hord
          rw [show j - k = (j - (k + 1)) + 1 by omega, missing]
          omega
      stream := by
        rw [hP.stream, if_neg (Nat.succ_ne_zero n)]
        split
        · next h => rw [hT.stream, h, ← hbp, show k + (0 + 1) - 1 = k by omega]
        · next h => rw [show k + 1 + n - 1 = k + (n + 1) - 1 by omega] }

/-- What the turns after some progress need is what they needed before it. -/
theorem Progress.need_eq (h : Progress f k n buffer s s') {j : Nat} (hj : k + n ≤ j) :
    s'.need f j = s.need f j := by
  unfold need
  rw [h.same j (Or.inr hj)]
  by_cases h12 : j = 12
  · rw [h.indirect (by omega)]
  · simp only [h12, false_and]

theorem missing_succ (s : Sfs) (f : Fin 300) (k n : Nat) :
    s.missing f k (n + 1) = s.missing f k n + s.need f (k + n) := by
  rw [missing_add]
  rfl

theorem missing_mono {m : Nat} (h : m ≤ n) : s.missing f k m ≤ s.missing f k n := by
  obtain ⟨d, rfl⟩ := Nat.exists_eq_add_of_le h
  rw [missing_add]
  omega

theorem missing_le (s : Sfs) (f : Fin 300) : ∀ n k : Nat, s.missing f k n ≤ 2 * n
  | 0, k => Nat.le_refl 0
  | n + 1, k => by
      have hneed : s.need f k ≤ 2 := by
        unfold need
        split <;> split <;> omega
      have := missing_le s f n (k + 1)
      rw [missing]
      omega

theorem missing_eq_zero : ∀ {n k : Nat}, (∀ j, k ≤ j → j < k + n → s.need f j = 0) →
    s.missing f k n = 0 := by
  intro n
  induction n with
  | zero => intro k _; rfl
  | succ n ih =>
      intro k h
      rw [missing, h k (Nat.le_refl _) (by omega), ih fun j hj hj' => h j (by omega) (by omega)]

/-! ## The loop -/

/-- A run of the loop makes some progress; then it is done, or it stops. Along
the turns it made goes any relation `R` that each of them has. -/
theorem writeLoop_along {R : Sfs → Sfs → Prop} {capacity : Int} (hrefl : ∀ s, R s s)
    (htrans : ∀ {s t u}, R s t → R t u → R s u)
    (hturn : ∀ {k l l' s s'} {b : Fin 1024}, Owned s → Tracks f k l s →
      chooseBlock junk f k l s = (some ((b : Nat) : Int), l', s') →
      Turn f k (piece buffer k) s (s'.writeBlocks (b : Nat) 1 (piece buffer k)) →
      R s (s'.writeBlocks (b : Nat) 1 (piece buffer k))) :
    ∀ {n k : Nat} {l : WriteLocals} {s s' : Sfs} {b : Bool}, Owned s → Tracks f k l s →
      writeLoop junk f buffer capacity n k l s = .ok (b, s') →
      ∃ m s₁, m ≤ n ∧ Progress f k m buffer s s₁ ∧ R s s₁ ∧
        (b = true ∧ m = n ∧ s' = s₁ ∨ b = false ∧ m < n ∧ Stops f (k + m) s₁ s' ∧
          ∃ o l₁ l', Tracks f (k + m) l₁ s₁ ∧ chooseBlock junk f (k + m) l₁ s₁ = (o, l', s')) := by
  intro n
  induction n with
  | zero =>
      intro k l s s' b hs _ h
      simp only [writeLoop, Except.ok.injEq, Prod.mk.injEq] at h
      obtain ⟨rfl, rfl⟩ := h
      exact ⟨0, s, Nat.le_refl _, .refl hs f k buffer, hrefl s, Or.inl ⟨rfl, rfl, rfl⟩⟩
  | succ n ih =>
      intro k l s s' b hs ht h
      rw [writeLoop] at h
      by_cases hgo : k < 268 ∧ s.need f k ≤ s.freeBelow 1024
      · obtain ⟨hk, hn⟩ := hgo
        obtain ⟨a, l', s₁, hchoose, hdone⟩ := chooseBlock_done junk hs ht hk hn
        obtain ⟨hT, ht'⟩ := hdone (piece buffer k)
        have halt := a.isLt
        have hR := hturn hs ht hchoose hT
        rw [hchoose] at h
        dsimp only at h
        rw [if_neg (by omega)] at h
        split at h
        · cases h
        · obtain ⟨m, s₂, hm, hP, hR', hend⟩ := ih hT.owned ht' h
          refine ⟨m + 1, s₂, by omega, hP.cons hT hk hn, htrans hR hR', ?_⟩
          rw [show k + (m + 1) = k + 1 + m by omega]
          rcases hend with ⟨hb, hmn, hs'⟩ | ⟨hb, hmn, hs'⟩
          · exact Or.inl ⟨hb, by omega, hs'⟩
          · exact Or.inr ⟨hb, by omega, hs'⟩
      · obtain ⟨o, l', s₁, hchoose, ho, hstop⟩ :=
          chooseBlock_stop junk hs ht (by omega)
        have hend : b = false ∧ s' = s₁ := by
          rw [hchoose] at h
          rcases ho with rfl | rfl
          · cases h
            exact ⟨rfl, rfl⟩
          · dsimp only at h
            rw [if_pos (by omega)] at h
            cases h
            exact ⟨rfl, rfl⟩
        obtain ⟨rfl, rfl⟩ := hend
        exact ⟨0, s, by omega, .refl hs f k buffer, hrefl s,
          Or.inr ⟨rfl, by omega, hstop, o, l, l', ht, hchoose⟩⟩

theorem writeLoop_cases {capacity : Int} {b : Bool} (hs : Owned s) (ht : Tracks f k l s)
    (h : writeLoop junk f buffer capacity n k l s = .ok (b, s')) :
    ∃ m s₁, m ≤ n ∧ Progress f k m buffer s s₁ ∧
      (b = true ∧ m = n ∧ s' = s₁ ∨ b = false ∧ m < n ∧ Stops f (k + m) s₁ s') := by
  obtain ⟨m, s₁, hm, hP, -, hend⟩ := writeLoop_along (R := fun _ _ => True) (fun _ => trivial)
    (fun _ _ => trivial) (fun _ _ _ _ => trivial) hs ht h
  refine ⟨m, s₁, hm, hP, hend.imp_right fun ⟨hb, hlt, hstop, _⟩ => ⟨hb, hlt, hstop⟩⟩

variable (junk f buffer) in
/-- A buffer that holds all its blocks is never overrun. -/
theorem writeLoop_ok (capacity : Int) : ∀ {n k : Nat} {l : WriteLocals} {s : Sfs},
    ((k : Int) + n) * 1024 ≤ capacity →
    ∃ r, writeLoop junk f buffer capacity n k l s = .ok r := by
  intro n
  induction n with
  | zero => intro k l s _; exact ⟨_, rfl⟩
  | succ n ih =>
      intro k l s hcap
      rw [writeLoop]
      generalize chooseBlock junk f k l s = x
      obtain ⟨o, l', s₁⟩ := x
      cases o with
      | none => exact ⟨_, rfl⟩
      | some block =>
          dsimp only
          split
          · exact ⟨_, rfl⟩
          · rw [if_neg (by omega)]
            exact ih (by omega)

end OsConcepts.Sfs
