import Mathlib.Data.List.Nodup
import Mathlib.Logic.Function.Basic

/-!
# Singly linked tail queues

The tail queues of `sys/queue.h`. An element has one link field, a head points at
the first element and at the cell the next element's address is to be written to:
the link of the last element, or its own first field. Several heads share the one
link field of each element, so an element can be in one queue only.

`Holds` says that a queue is a list, and each operation does to the list what it
should as long as the element it adds is in no queue (`Holds.insertTail`,
`Holds.removeHead`); the queues that have no element in common with it stay as
they are.
-/

namespace OsConcepts

/-- A place an element's address is written to: the first field of a head, the link
field of an element, or memory that is no longer there. -/
inductive Cell (κ α : Type*) where
  | first (q : κ)
  | next (e : α)
  | gone
  deriving DecidableEq

/-- `STAILQ_HEAD`: a head by its two fields. -/
structure Head (κ α : Type*) where
  first : Option α
  last : Cell κ α

/-- The heads, and the link field of every element. -/
structure TailQueues (κ α : Type*) where
  head : κ → Head κ α
  next : α → Option α

namespace TailQueues

variable {κ α : Type*}

section Operations

variable [DecidableEq κ] [DecidableEq α] (m : TailQueues κ α) (q : κ) (e : α)

def setHead (h : Head κ α) : TailQueues κ α :=
  { m with head := Function.update m.head q h }

def setNext (x : Option α) : TailQueues κ α :=
  { m with next := Function.update m.next e x }

/-- A write through a pointer to a cell. -/
def write (c : Cell κ α) (x : Option α) : Option (TailQueues κ α) :=
  match c with
  | .first q => some (m.setHead q { m.head q with first := x })
  | .next e => some (m.setNext e x)
  | .gone => none

/-- `STAILQ_INIT`. -/
def init : TailQueues κ α := m.setHead q ⟨none, .first q⟩

/-- `STAILQ_FIRST`. -/
def first : Option α := (m.head q).first

/-- `STAILQ_INSERT_TAIL`. -/
def insertTail : Option (TailQueues κ α) :=
  let m := m.setNext e none
  (m.write (m.head q).last (some e)).map fun m =>
    m.setHead q { m.head q with last := .next e }

/-- `STAILQ_INSERT_HEAD`. -/
def insertHead : TailQueues κ α :=
  let m := m.setNext e (m.head q).first
  let m := if m.next e = none then m.setHead q { m.head q with last := .next e } else m
  m.setHead q { m.head q with first := some e }

/-- `STAILQ_REMOVE_HEAD`. -/
def removeHead : Option (TailQueues κ α) :=
  (m.head q).first.map fun e =>
    let m := m.setHead q { m.head q with first := m.next e }
    if (m.head q).first = none then m.setHead q { m.head q with last := .first q } else m

end Operations

variable {m m' : TailQueues κ α} {q q' : κ} {e x y : α} {xs ys : List α}

section Fields

variable [DecidableEq κ] (h : Head κ α)

@[simp] theorem head_setHead_self : (m.setHead q h).head q = h := Function.update_self _ _ _

@[simp] theorem head_setHead_ne (hq : q' ≠ q) : (m.setHead q h).head q' = m.head q' :=
  Function.update_of_ne hq _ _

@[simp] theorem setHead_setHead (h' : Head κ α) :
    (m.setHead q h).setHead q h' = m.setHead q h' :=
  congrArg (TailQueues.mk · m.next) (Function.update_idem _ _ _)

@[simp] theorem next_setHead : (m.setHead q h).next = m.next := rfl

end Fields

section Links

variable [DecidableEq α] (p : Option α)

@[simp] theorem head_setNext : (m.setNext e p).head = m.head := rfl

@[simp] theorem next_setNext_self : (m.setNext e p).next e = p := Function.update_self _ _ _

@[simp] theorem next_setNext_ne (hx : x ≠ e) : (m.setNext e p).next x = m.next x :=
  Function.update_of_ne hx _ _

end Links

/-! ## The list of a queue -/

/-- The elements reached from a pointer by the links. -/
def Linked (next : α → Option α) : Option α → List α → Prop
  | p, [] => p = none
  | p, x :: xs => p = some x ∧ Linked next (next x) xs

/-- The cell that ends a queue. -/
def lastCell (q : κ) (xs : List α) : Cell κ α :=
  match xs.getLast? with
  | some x => .next x
  | none => .first q

/-- The queue is the list `xs`. -/
structure Holds (m : TailQueues κ α) (q : κ) (xs : List α) : Prop where
  linked : Linked m.next (m.head q).first xs
  last : (m.head q).last = lastCell q xs
  nodup : xs.Nodup

/-- Links that agree on the elements of the list. -/
theorem Linked.congr {next next' : α → Option α} {p : Option α} (h : Linked next p xs)
    (hnext : ∀ x ∈ xs, next' x = next x) : Linked next' p xs := by
  induction xs generalizing p with
  | nil => exact h
  | cons x xs ih =>
      refine ⟨h.1, ?_⟩
      rw [hnext x List.mem_cons_self]
      exact ih h.2 fun y hy => hnext y (List.mem_cons_of_mem x hy)

theorem Linked.head {next : α → Option α} {p : Option α} (h : Linked next p xs) :
    p = xs.head? := by
  cases xs with
  | nil => exact h
  | cons x xs => exact h.1

/-- The last link gets the new element. -/
theorem Linked.append {next next' : α → Option α} {p : Option α} (h : Linked next p (xs ++ [x]))
    (hnext : ∀ y ∈ xs, next' y = next y) (hx : next' x = some e) (he : next' e = none) :
    Linked next' p (xs ++ [x, e]) := by
  induction xs generalizing p with
  | nil => exact ⟨h.1, hx, he⟩
  | cons y xs ih =>
      refine ⟨h.1, ?_⟩
      rw [hnext y List.mem_cons_self]
      exact ih h.2 fun z hz => hnext z (List.mem_cons_of_mem y hz)

theorem lastCell_append (q : κ) (xs : List α) (x : α) : lastCell q (xs ++ [x]) = .next x := by
  unfold lastCell
  rw [List.getLast?_append, List.getLast?_singleton]
  rfl

/-- The first of the list is the first of the queue. -/
theorem Holds.first (h : m.Holds q xs) : m.first q = xs.head? := h.linked.head

/-- A queue whose head and whose links are untouched. -/
theorem Holds.congr (h : m.Holds q xs) (hhead : m'.head q = m.head q)
    (hnext : ∀ x ∈ xs, m'.next x = m.next x) : m'.Holds q xs := by
  refine ⟨?_, hhead ▸ h.last, h.nodup⟩
  rw [hhead]
  exact h.linked.congr hnext

/-! ## What the operations do to the lists -/

variable [DecidableEq κ] [DecidableEq α]

omit [DecidableEq α] in
theorem holds_init (m : TailQueues κ α) (q : κ) : (m.init q).Holds q [] := by
  refine ⟨?_, ?_, List.nodup_nil⟩
  · rw [init, head_setHead_self]
    rfl
  · rw [init, head_setHead_self]
    rfl

omit [DecidableEq α] in
theorem Holds.init_ne (h : m.Holds q' xs) (hq : q' ≠ q) : (m.init q).Holds q' xs :=
  h.congr (head_setHead_ne _ hq) fun _ _ => rfl

/-- An element of no queue is added at the end, and no other queue changes. -/
theorem Holds.insertTail (h : m.Holds q xs) (he : e ∉ xs) :
    ∃ m', m.insertTail q e = some m' ∧ m'.Holds q (xs ++ [e]) ∧
      ∀ q' ys, q' ≠ q → e ∉ ys → List.Disjoint xs ys → m.Holds q' ys → m'.Holds q' ys := by
  have hlast : ((m.setNext e none).head q).last = lastCell q xs := h.last
  have hnodup : (xs ++ [e]).Nodup := by
    refine List.nodup_append.mpr ⟨h.nodup, List.nodup_singleton e, ?_⟩
    intro a ha b hb heq
    exact he (List.mem_singleton.mp hb ▸ heq ▸ ha)
  rcases List.eq_nil_or_concat xs with rfl | ⟨zs, x, rfl⟩
  · refine ⟨_, by rw [TailQueues.insertTail, hlast]; rfl, ⟨?_, ?_, hnodup⟩, ?_⟩
    · rw [head_setHead_self, head_setHead_self]
      exact ⟨rfl, next_setNext_self _⟩
    · rw [head_setHead_self]
      rfl
    · intro q' ys hq hys _ hother
      refine hother.congr ?_ fun y hy => ?_
      · rw [head_setHead_ne _ hq, head_setHead_ne _ hq]
        rfl
      · have hye : y ≠ e := by
          rintro rfl
          exact hys hy
        rw [next_setHead, next_setHead, next_setNext_ne _ hye]
  · rw [List.concat_eq_append] at *
    have hx : e ≠ x := fun heq => he (heq ▸ List.mem_append_right _ (List.mem_singleton_self e))
    have hzs : ∀ y ∈ zs, y ≠ x ∧ y ≠ e := by
      intro y hy
      refine ⟨fun heq => ?_, fun heq => he (List.mem_append_left _ (heq ▸ hy))⟩
      exact (List.nodup_append.mp h.nodup).2.2 y hy x (List.mem_singleton_self x) heq
    refine ⟨_, by rw [TailQueues.insertTail, hlast, lastCell_append]; rfl, ⟨?_, ?_, hnodup⟩, ?_⟩
    · rw [head_setHead_self, List.append_assoc]
      refine h.linked.append (fun y hy => ?_) (next_setNext_self _) ?_
      · rw [next_setHead, next_setNext_ne _ (hzs y hy).1, next_setNext_ne _ (hzs y hy).2]
      · rw [next_setHead, next_setNext_ne _ hx, next_setNext_self]
    · rw [head_setHead_self, lastCell_append]
    · intro q' ys hq hys hdisj hother
      refine hother.congr (head_setHead_ne _ hq) fun y hy => ?_
      have hyx : y ≠ x := fun heq =>
        hdisj (List.mem_append_right _ (List.mem_singleton_self x)) (heq ▸ hy)
      have hye : y ≠ e := by
        rintro rfl
        exact hys hy
      rw [next_setHead, next_setNext_ne _ hyx, next_setNext_ne _ hye]

omit [DecidableEq α] in
theorem removeHead_of_first (hfirst : (m.head q).first = some x) :
    m.removeHead q = some (m.setHead q
      ⟨m.next x, if m.next x = none then .first q else (m.head q).last⟩) := by
  unfold removeHead
  rw [hfirst, Option.map_some]
  dsimp only
  rw [head_setHead_self]
  split <;> simp_all

omit [DecidableEq α] in
/-- The first element is removed, and no other queue changes. -/
theorem Holds.removeHead (h : m.Holds q (x :: xs)) :
    ∃ m', m.removeHead q = some m' ∧ m'.Holds q xs ∧
      ∀ q' ys, q' ≠ q → m.Holds q' ys → m'.Holds q' ys := by
  obtain ⟨hfirst, hlinked⟩ := h.linked
  refine ⟨_, removeHead_of_first hfirst, ⟨?_, ?_, (List.nodup_cons.mp h.nodup).2⟩,
    fun q' ys hq hother => hother.congr (head_setHead_ne _ hq) fun _ _ => rfl⟩
  · rw [head_setHead_self]
    exact hlinked
  · rw [head_setHead_self]
    cases xs with
    | nil => exact if_pos hlinked
    | cons y xs => exact (if_neg (by rw [hlinked.1]; exact nofun)).trans h.last

theorem insertHead_eq (m : TailQueues κ α) (q : κ) (e : α) :
    m.insertHead q e = (m.setNext e (m.head q).first).setHead q
      ⟨some e, if (m.head q).first = none then .next e else (m.head q).last⟩ := by
  unfold insertHead
  dsimp only
  rw [next_setNext_self]
  split <;> simp

/-- An element of no queue is added at the front, and no other queue changes. -/
theorem Holds.insertHead (h : m.Holds q xs) (he : e ∉ xs) :
    (m.insertHead q e).Holds q (e :: xs) ∧
      ∀ q' ys, q' ≠ q → e ∉ ys → m.Holds q' ys → (m.insertHead q e).Holds q' ys := by
  have hkept : ∀ zs : List α, e ∉ zs →
      ∀ y ∈ zs, (m.setNext e (m.head q).first).next y = m.next y :=
    fun zs hzs y hy => next_setNext_ne _ fun heq => hzs (heq ▸ hy)
  rw [insertHead_eq]
  refine ⟨⟨?_, ?_, List.nodup_cons.mpr ⟨he, h.nodup⟩⟩, fun q' ys hq hys hother =>
    hother.congr (head_setHead_ne _ hq) (hkept ys hys)⟩
  · rw [head_setHead_self]
    refine ⟨rfl, ?_⟩
    rw [next_setHead, next_setNext_self]
    exact h.linked.congr (hkept xs he)
  · rw [head_setHead_self]
    cases xs with
    | nil => exact if_pos h.linked
    | cons x xs => exact (if_neg (by rw [h.linked.1]; exact nofun)).trans h.last

end TailQueues

end OsConcepts
