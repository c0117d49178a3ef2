import OsConcepts.Sut.Queue

/-!
# The queues are lists

What the functions of `queue.c` are for: each initialised queue is a list, and an
entry is added that is in none of them. Used so, the functions never go through a
bad pointer and return what the lists say, over any sequence of calls on any number
of queues. A queue that was created and not initialised is no queue yet.
-/

namespace OsConcepts.Sut

open OsConcepts

variable {κ α : Type} [DecidableEq κ] [DecidableEq α] {m m' : TailQueues κ α}
  {l l' : κ → Option (List α)} {c : QueueCall κ α} {x : Option α}

/-- The entry is in no queue. -/
def Spare (l : κ → Option (List α)) (e : α) : Prop := ∀ q xs, l q = some xs → e ∉ xs

/-- What a call does to the lists of the initialised queues. -/
inductive QueueSpec (l : κ → Option (List α)) :
    QueueCall κ α → (κ → Option (List α)) → Option α → Prop
  | create {q : κ} : QueueSpec l (.create q) (Function.update l q none) none
  | init {q : κ} : QueueSpec l (.init q) (Function.update l q (some [])) none
  | insertHead {q : κ} {e : α} {xs : List α} : l q = some xs → Spare l e →
      QueueSpec l (.insertHead q e) (Function.update l q (some (e :: xs))) none
  | insertTail {q : κ} {e : α} {xs : List α} : l q = some xs → Spare l e →
      QueueSpec l (.insertTail q e) (Function.update l q (some (xs ++ [e]))) none
  | peekEmpty {q : κ} : l q = some [] → QueueSpec l (.peekFront q) l none
  | peekFront {q : κ} {e : α} {xs : List α} : l q = some (e :: xs) →
      QueueSpec l (.peekFront q) l (some e)
  | popEmpty {q : κ} : l q = some [] → QueueSpec l (.popHead q) l none
  | popHead {q : κ} {e : α} {xs : List α} : l q = some (e :: xs) →
      QueueSpec l (.popHead q) (Function.update l q (some xs)) (some e)

/-- A sequence of calls on the lists. -/
inductive QueueRun : (κ → Option (List α)) → List (QueueCall κ α) → (κ → Option (List α)) →
    List (Option α) → Prop
  | nil {l : κ → Option (List α)} : QueueRun l [] l []
  | cons {l l' l'' : κ → Option (List α)} {c : QueueCall κ α} {cs : List (QueueCall κ α)}
      {x : Option α} {xs : List (Option α)} :
      QueueSpec l c l' x → QueueRun l' cs l'' xs → QueueRun l (c :: cs) l'' (x :: xs)

/-- The initialised queues are these lists, with no entry in two of them. -/
structure Lists (m : TailQueues κ α) (l : κ → Option (List α)) : Prop where
  holds : ∀ q xs, l q = some xs → m.Holds q xs
  apart : ∀ q q' xs ys, q ≠ q' → l q = some xs → l q' = some ys → List.Disjoint xs ys

omit [DecidableEq α] in
/-- One queue gets a new list, apart from the others, and the others are as they
were. -/
theorem Lists.update (h : Lists m l) {q : κ} {zs : List α} (hq : m'.Holds q zs)
    (hother : ∀ q' ys, q' ≠ q → l q' = some ys → m'.Holds q' ys ∧ List.Disjoint zs ys) :
    Lists m' (Function.update l q (some zs)) := by
  constructor
  · intro q' xs hxs
    by_cases heq : q' = q
    · obtain rfl := heq
      rw [Function.update_self] at hxs
      exact Option.some.inj hxs ▸ hq
    · rw [Function.update_of_ne heq] at hxs
      exact (hother q' xs heq hxs).1
  · intro q₁ q₂ xs ys hne hxs hys
    by_cases h₁ : q₁ = q
    · obtain rfl := h₁
      rw [Function.update_self] at hxs
      rw [Function.update_of_ne (Ne.symm hne)] at hys
      exact Option.some.inj hxs ▸ (hother q₂ ys (Ne.symm hne) hys).2
    · rw [Function.update_of_ne h₁] at hxs
      by_cases h₂ : q₂ = q
      · obtain rfl := h₂
        rw [Function.update_self] at hys
        exact Option.some.inj hys ▸ List.disjoint_symm (hother q₁ xs h₁ hxs).2
      · rw [Function.update_of_ne h₂] at hys
        exact h.apart q₁ q₂ xs ys hne hxs hys

omit [DecidableEq κ] [DecidableEq α] in
theorem Lists.none (m : TailQueues κ α) : Lists m fun _ => none where
  holds _ _ h := by cases h
  apart _ _ _ _ _ h := by cases h

/-- A call that the lists allow does to the memory what it does to the lists. -/
theorem exec_lists (h : Lists m l) (hspec : QueueSpec l c l' x) :
    ∃ m', c.exec m = some (m', x) ∧ Lists m' l' := by
  cases hspec with
  | @create q =>
      refine ⟨_, rfl, fun q' xs hxs => ?_, fun q₁ q₂ xs ys hne hxs hys => ?_⟩
      · by_cases heq : q' = q
        · rw [heq, Function.update_self] at hxs
          cases hxs
        · rw [Function.update_of_ne heq] at hxs
          exact (h.holds q' xs hxs).congr (TailQueues.head_setHead_ne _ heq) fun _ _ => rfl
      · by_cases h₁ : q₁ = q
        · rw [h₁, Function.update_self] at hxs
          cases hxs
        by_cases h₂ : q₂ = q
        · rw [h₂, Function.update_self] at hys
          cases hys
        rw [Function.update_of_ne h₁] at hxs
        rw [Function.update_of_ne h₂] at hys
        exact h.apart q₁ q₂ xs ys hne hxs hys
  | @init q =>
      exact ⟨_, rfl, h.update (TailQueues.holds_init m q) fun q' ys hq hys =>
        ⟨(h.holds q' ys hys).init_ne hq, List.disjoint_nil_left ys⟩⟩
  | @insertHead q e xs hq hspare =>
      obtain ⟨hholds, hother⟩ := (h.holds q xs hq).insertHead (hspare q xs hq)
      refine ⟨_, rfl, h.update hholds fun q' ys hne hys => ⟨?_, ?_⟩⟩
      · exact hother q' ys hne (hspare q' ys hys) (h.holds q' ys hys)
      · exact List.disjoint_cons_left.mpr
          ⟨hspare q' ys hys, h.apart q q' xs ys (Ne.symm hne) hq hys⟩
  | @insertTail q e xs hq hspare =>
      obtain ⟨m', hm', hholds, hother⟩ := (h.holds q xs hq).insertTail (hspare q xs hq)
      refine ⟨m', by rw [QueueCall.exec, queueInsertTail, hm']; rfl,
        h.update hholds fun q' ys hne hys => ?_⟩
      have hapart := h.apart q q' xs ys (Ne.symm hne) hq hys
      refine ⟨hother q' ys hne (hspare q' ys hys) hapart (h.holds q' ys hys), ?_⟩
      exact List.disjoint_append_left.mpr
        ⟨hapart, List.singleton_disjoint.mpr (hspare q' ys hys)⟩
  | peekEmpty hq | peekFront hq =>
      exact ⟨m, congrArg (fun x => some (m, x)) (h.holds _ _ hq).first, h⟩
  | @popEmpty q hq =>
      have hnone : queuePeekFront m q = none := (h.holds q [] hq).first
      exact ⟨m, by rw [QueueCall.exec, queuePopHead, hnone], h⟩
  | @popHead q e xs hq =>
      have hsome : queuePeekFront m q = some e := (h.holds q _ hq).first
      obtain ⟨m', hm', hholds, hother⟩ := (h.holds q _ hq).removeHead
      refine ⟨m', by rw [QueueCall.exec, queuePopHead, hsome]; dsimp only; rw [hm']; rfl,
        h.update hholds fun q' ys hne hys => ⟨hother q' ys hne (h.holds q' ys hys), ?_⟩⟩
      exact (List.disjoint_cons_left.mp (h.apart q q' _ ys (Ne.symm hne) hq hys)).2

theorem results_lists {cs : List (QueueCall κ α)} {xs : List (Option α)} (h : Lists m l)
    (hrun : QueueRun l cs l' xs) :
    ∃ m', results QueueCall.exec cs m = some (m', xs) ∧ Lists m' l' := by
  induction hrun generalizing m with
  | nil => exact ⟨m, rfl, h⟩
  | cons hspec _ ih =>
      obtain ⟨m', hexec, h'⟩ := exec_lists h hspec
      obtain ⟨m'', hresults, h''⟩ := ih h'
      refine ⟨m'', ?_, h''⟩
      rw [results, hexec, Option.bind_some]
      dsimp only
      rw [hresults]
      rfl

/-- Whatever is in the memory at first, calls that add an entry only when it is in
no queue, and to an initialised one, return what the lists say and leave the lists
in the memory. -/
theorem queue_calls_lists (m : TailQueues κ α) {cs : List (QueueCall κ α)}
    {xs : List (Option α)} (hrun : QueueRun (fun _ => none) cs l xs) :
    ∃ m', results QueueCall.exec cs m = some (m', xs) ∧ ∀ q ys, l q = some ys → m'.Holds q ys := by
  obtain ⟨m', hresults, h⟩ := results_lists (Lists.none m) hrun
  exact ⟨m', hresults, h.holds⟩

/-- Calls on two queues: one entry goes from the first to the second. -/
def passOne : List (QueueCall Bool Nat) :=
  [.create true, .init true, .create false, .init false, .insertTail true 1, .insertTail true 2,
    .insertHead true 3, .popHead true, .insertTail false 3, .peekFront true, .popHead false]

/-- Memory with old addresses in it. -/
def leftOver : TailQueues Bool Nat := ⟨fun _ => ⟨some 7, .gone⟩, fun e => some e⟩

theorem queue_calls_lists_two :
    ∃ (l : Bool → Option (List Nat)) (m' : TailQueues Bool Nat),
      results QueueCall.exec passOne leftOver
      = some (m', [none, none, none, none, none, none, none, some 3, none, some 1, some 3]) ∧
      l true = some [1, 2] ∧ l false = some [] ∧ ∀ q ys, l q = some ys → m'.Holds q ys := by
  have hspare : ∀ (l : Bool → Option (List Nat)) (e : Nat),
      (∀ q, e ∉ (l q).getD []) → Spare l e := by
    intro l e h q xs hq hmem
    refine h q ?_
    rw [hq]
    exact hmem
  have hrun : ∃ l, QueueRun (fun _ => none) passOne l
      [none, none, none, none, none, none, none, some 3, none, some 1, some 3] ∧
      l true = some [1, 2] ∧ l false = some [] :=
    ⟨_, .cons .create (.cons .init (.cons .create (.cons .init
      (.cons (.insertTail rfl (hspare _ 1 (by decide)))
        (.cons (.insertTail rfl (hspare _ 2 (by decide)))
          (.cons (.insertHead rfl (hspare _ 3 (by decide))) (.cons (.popHead rfl)
            (.cons (.insertTail rfl (hspare _ 3 (by decide))) (.cons (.peekFront rfl)
              (.cons (.popHead rfl) .nil)))))))))), rfl, rfl⟩
  obtain ⟨l, hrun, htrue, hfalse⟩ := hrun
  obtain ⟨m', hresults, hholds⟩ := queue_calls_lists leftOver hrun
  exact ⟨l, m', hresults, htrue, hfalse, hholds⟩

end OsConcepts.Sut
