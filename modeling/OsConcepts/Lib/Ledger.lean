import Mathlib.Init

/-!
# Who holds what

A `Ledger` says which holders hold which resources, and which resources the
allocator counts as busy. It is `Sound` when no resource has two holders and
every held one is busy, and `Tight` over a fixed stock when nothing else is
busy: the resources that are busy are the fixed ones and the held ones, so none
has leaked.

A program changes a ledger in three ways. It `Acquires`: resources that were
not busy become busy and held. It `Forgets`: references disappear and the busy
marks stay, which is harmless for soundness and the way a leak begins. It
`Releases`: references disappear and some resources nobody holds any more stop
being busy. Each way keeps a sound ledger sound, and says what it needs to keep
a tight one tight.
-/

namespace OsConcepts

/-- The holders of the resources, and the allocator's busy marks. -/
structure Ledger (ι : Type*) (β : Type*) where
  holds : ι → β → Prop
  busy : β → Prop

namespace Ledger

variable {ι β : Type*} {L L' L'' : Ledger ι β}

/-- No resource has two holders, and whatever is held is busy. -/
structure Sound (L : Ledger ι β) : Prop where
  exclusive : ∀ {i j b}, L.holds i b → L.holds j b → i = j
  accounted : ∀ {i b}, L.holds i b → L.busy b

/-- Besides the fixed resources exactly the held ones are busy. -/
def Tight (fixed : β → Prop) (L : Ledger ι β) : Prop :=
  ∀ b, L.busy b ↔ fixed b ∨ ∃ i, L.holds i b

/-! ## Acquiring -/

/-- Nothing is given up; what is new was not busy before, is busy now, and has
one holder. -/
structure Acquires (L L' : Ledger ι β) : Prop where
  keeps : ∀ {i b}, L.holds i b → L'.holds i b
  fresh : ∀ {i b}, L'.holds i b → L.holds i b ∨ ¬ L.busy b
  single : ∀ {i j b}, ¬ L.busy b → L'.holds i b → L'.holds j b → i = j
  marks : ∀ b, L'.busy b ↔ L.busy b ∨ ∃ i, L'.holds i b

theorem Acquires.refl (h : L.Sound) : L.Acquires L where
  keeps := id
  fresh := Or.inl
  single hb hi _ := absurd (h.accounted hi) hb
  marks _ := ⟨Or.inl, fun hb => hb.elim id fun ⟨_, hi⟩ => h.accounted hi⟩

theorem Acquires.trans (h : L.Acquires L') (h' : L'.Acquires L'') : L.Acquires L'' where
  keeps hi := h'.keeps (h.keeps hi)
  fresh hi := by
    rcases h'.fresh hi with hi' | hb
    · exact h.fresh hi'
    · exact Or.inr fun hbusy => hb ((h.marks _).mpr (Or.inl hbusy))
  single {i j b} hb hi hj := by
    by_cases hb' : L'.busy b
    · have hi' := (h'.fresh hi).resolve_right (not_not_intro hb')
      have hj' := (h'.fresh hj).resolve_right (not_not_intro hb')
      exact h.single hb hi' hj'
    · exact h'.single hb' hi hj
  marks b := by
    rw [h'.marks b, h.marks b]
    constructor
    · rintro ((hb | ⟨i, hi⟩) | hex)
      · exact Or.inl hb
      · exact Or.inr ⟨i, h'.keeps hi⟩
      · exact Or.inr hex
    · rintro (hb | hex)
      · exact Or.inl (Or.inl hb)
      · exact Or.inr hex

theorem Sound.acquires (hs : L.Sound) (h : L.Acquires L') : L'.Sound where
  exclusive {i j b} hi hj := by
    by_cases hb : L.busy b
    · have hi' := (h.fresh hi).resolve_right (not_not_intro hb)
      have hj' := (h.fresh hj).resolve_right (not_not_intro hb)
      exact hs.exclusive hi' hj'
    · exact h.single hb hi hj
  accounted {i b} hi := (h.marks b).mpr (Or.inr ⟨i, hi⟩)

theorem Tight.acquires {fixed : β → Prop} (ht : L.Tight fixed) (h : L.Acquires L') :
    L'.Tight fixed := by
  intro b
  rw [h.marks b, ht b]
  constructor
  · rintro ((hf | ⟨i, hi⟩) | hex)
    · exact Or.inl hf
    · exact Or.inr ⟨i, h.keeps hi⟩
    · exact Or.inr hex
  · rintro (hf | hex)
    · exact Or.inl (Or.inl hf)
    · exact Or.inr hex

/-! ## Forgetting and releasing -/

/-- References disappear, the marks stay. -/
structure Forgets (L L' : Ledger ι β) : Prop where
  sub : ∀ {i b}, L'.holds i b → L.holds i b
  marks : ∀ b, L'.busy b ↔ L.busy b

theorem Sound.forgets (hs : L.Sound) (h : L.Forgets L') : L'.Sound where
  exclusive hi hj := hs.exclusive (h.sub hi) (h.sub hj)
  accounted {_ b} hi := (h.marks b).mpr (hs.accounted (h.sub hi))

/-- References disappear, and the resources in `gone`, which nobody holds any
more, lose their marks. -/
structure Releases (gone : β → Prop) (L L' : Ledger ι β) : Prop where
  sub : ∀ {i b}, L'.holds i b → L.holds i b
  unheld : ∀ {i b}, gone b → ¬ L'.holds i b
  marks : ∀ b, L'.busy b ↔ L.busy b ∧ ¬ gone b

theorem Sound.releases {gone : β → Prop} (hs : L.Sound) (h : L.Releases gone L') :
    L'.Sound where
  exclusive hi hj := hs.exclusive (h.sub hi) (h.sub hj)
  accounted {_ b} hi := (h.marks b).mpr
    ⟨hs.accounted (h.sub hi), fun hg => h.unheld hg hi⟩

/-- A release leaks nothing when every resource that loses its holder is
released, and nothing of the fixed stock is. -/
theorem Tight.releases {fixed gone : β → Prop} (ht : L.Tight fixed)
    (h : L.Releases gone L') (hfixed : ∀ b, gone b → ¬ fixed b)
    (hall : ∀ i b, L.holds i b → L'.holds i b ∨ gone b) : L'.Tight fixed := by
  intro b
  rw [h.marks b, ht b]
  constructor
  · rintro ⟨hf | ⟨i, hi⟩, hg⟩
    · exact Or.inl hf
    · exact Or.inr ⟨i, (hall i b hi).resolve_right hg⟩
  · rintro (hf | ⟨i, hi⟩)
    · exact ⟨Or.inl hf, fun hg => hfixed b hg hf⟩
    · exact ⟨Or.inr ⟨i, h.sub hi⟩, fun hg => h.unheld hg hi⟩

end Ledger

end OsConcepts
