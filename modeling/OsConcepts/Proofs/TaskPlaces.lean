import OsConcepts.Proofs.SchedulerSteps

/-!
# Where each task is

A created task that has not exited is in `taskReadyQueue`, in `waitQueue`, with
`cexecScheduler` between its pop and its insertion, or with `iexecScheduler`
between its pop and its insertion: in one of the four, once. `Core` is the
invariant that carries this, with what the executors' locals and globals say at
each place of their loops.
-/

namespace OsConcepts.Sut

open OsConcepts

variable {s s' : State} {l : Label}

/-! ## The places -/

/-- The task an executor has seen at the head and has not popped yet. -/
def CexecPc.peeked : CexecPc → Option Nat
  | .setCurrent e | .pop e => some e
  | _ => none

/-- The task `cexecScheduler` has popped and not put back. -/
def CexecPc.held : CexecPc → Option Nat
  | .swap e | .run e _ | .call e _ _ | .result e _ _ | .afterSwap e | .insert e => some e
  | _ => none

/-- The task `cexecCurrentRunningTask` stands for. -/
def CexecPc.current : CexecPc → Option Nat
  | .pop e => some e
  | pc => pc.held

/-- The task whose code runs. -/
def CexecPc.running : CexecPc → Option Nat
  | .run _ t | .call _ t _ | .result _ t _ => some t
  | _ => none

def IexecPc.peeked : IexecPc → Option Nat
  | .setCurrent e | .pop e => some e
  | _ => none

def IexecPc.held : IexecPc → Option Nat
  | .serve e | .reset e | .insert e => some e
  | _ => none

def IexecPc.current : IexecPc → Option Nat
  | .pop e => some e
  | pc => pc.held

namespace State

variable (s : State)

/-- Created, and `sut_exit` not executed. -/
def Live (t : Nat) : Prop := t ∈ s.created ∧ (s.record t).isTaskActive = true

instance (t : Nat) : Decidable (s.Live t) := inferInstanceAs (Decidable (_ ∧ _))

/-- The unfinished task with `cexecScheduler`. -/
def cexecHeld : List Nat :=
  s.cexecPc.held.toList.filter fun e => (s.record e).isTaskActive

/-- The task with `iexecScheduler`. -/
def iexecHeld : List Nat := s.iexecPc.held.toList

/-- The four places. -/
def places : List Nat :=
  s.taskReadyQueue ++ s.waitQueue ++ s.cexecHeld ++ s.iexecHeld

end State

/-- The invariant of every run. -/
structure Core (s : State) : Prop where
  early : s.mainPc = .initCexec ∨ s.mainPc = .initIexec → s.created = []
  shutdown : s.isShutdown = true → s.mainPc = .join
  malloced : ∀ t ∈ s.created, t < s.malloced
  context : ∀ t ∈ s.created, (s.record t).context.task = t
  cexecPeeked : ∀ e, s.cexecPc.peeked = some e → s.taskReadyQueue.head? = some e
  cexecCurrent : ∀ e, s.cexecPc.current = some e →
    s.cexecCurrentRunningTask = some e ∧ e ∈ s.created
  running : ∀ t, s.cexecPc.running = some t → s.cexecPc.held = some t
  inserting : ∀ e, s.cexecPc = .insert e → (s.record e).isTaskActive = true
  iexecPeeked : ∀ e, s.iexecPc.peeked = some e → s.waitQueue.head? = some e
  iexecCurrent : ∀ e, s.iexecPc.current = some e →
    s.iexecCurrentRunningTask = some e ∧ e ∈ s.created
  places : ∀ t, s.places.count t = if s.Live t then 1 else 0

namespace Core

theorem start : Core start where
  early _ := rfl
  shutdown h := by cases h
  malloced _ h := absurd h List.not_mem_nil
  context _ h := absurd h List.not_mem_nil
  cexecPeeked _ h := by cases h
  cexecCurrent _ h := by cases h
  running _ h := by cases h
  inserting _ h := by cases h
  iexecPeeked _ h := by cases h
  iexecCurrent _ h := by cases h
  places _ := rfl

/-- Whoever is in a place is unfinished. -/
theorem live (h : Core s) {t : Nat} (ht : t ∈ s.places) : s.Live t := by
  have hpos := List.count_pos_iff.mpr ht
  rw [h.places t] at hpos
  by_contra hdead
  rw [if_neg hdead] at hpos
  exact absurd hpos (by decide)

theorem live_of_ready (h : Core s) {t : Nat} (ht : t ∈ s.taskReadyQueue) : s.Live t :=
  h.live (List.mem_append_left _ (List.mem_append_left _ (List.mem_append_left _ ht)))

theorem live_of_wait (h : Core s) {t : Nat} (ht : t ∈ s.waitQueue) : s.Live t :=
  h.live (List.mem_append_left _ (List.mem_append_left _ (List.mem_append_right _ ht)))

theorem live_of_iexecHeld (h : Core s) {e : Nat} (he : s.iexecPc.held = some e) : s.Live e :=
  h.live (List.mem_append_right _ (by rw [State.iexecHeld, he]; exact List.mem_singleton_self e))

end Core

/-! ## How the places change -/

theorem count_places (s : State) (t : Nat) : s.places.count t =
    s.taskReadyQueue.count t + s.waitQueue.count t + s.cexecHeld.count t
      + s.iexecHeld.count t := by
  rw [State.places, List.count_append, List.count_append, List.count_append]

theorem cexecHeld_none (h : s.cexecPc.held = none) : s.cexecHeld = [] := by
  rw [State.cexecHeld, h]
  rfl

theorem cexecHeld_some {e : Nat} (h : s.cexecPc.held = some e) :
    s.cexecHeld = if (s.record e).isTaskActive = true then [e] else [] := by
  rw [State.cexecHeld, h, Option.toList_some, List.filter_cons, List.filter_nil]

theorem iexecHeld_some {e : Nat} (h : s.iexecPc.held = some e) : s.iexecHeld = [e] := by
  rw [State.iexecHeld, h]
  rfl

theorem iexecHeld_none (h : s.iexecPc.held = none) : s.iexecHeld = [] := by
  rw [State.iexecHeld, h]
  rfl

theorem record_setRecord_self (s : State) (e : Nat) (r : QueueEntry) :
    (s.setRecord e r).record e = r := if_pos rfl

theorem record_setRecord_ne (s : State) {e i : Nat} (r : QueueEntry) (h : i ≠ e) :
    (s.setRecord e r).record i = s.record i := if_neg h

/-- A field an assignment to a record does not touch. -/
theorem field_setRecord {α : Type} (field : QueueEntry → α) {e : Nat} {r : QueueEntry}
    (h : field r = field (s.record e)) (i : Nat) :
    field ((s.setRecord e r).record i) = field (s.record i) := by
  by_cases hi : i = e
  · rw [hi, record_setRecord_self, h]
  · rw [record_setRecord_ne s r hi]

/-- Nothing that the places are made of changes. -/
theorem Core.places_same (h : Core s) (hready : s'.taskReadyQueue = s.taskReadyQueue)
    (hwait : s'.waitQueue = s.waitQueue) (hcexec : s'.cexecPc.held = s.cexecPc.held)
    (hiexec : s'.iexecPc.held = s.iexecPc.held) (hcreated : s'.created = s.created)
    (hactive : ∀ i, (s'.record i).isTaskActive = (s.record i).isTaskActive) (t : Nat) :
    s'.places.count t = if s'.Live t then 1 else 0 := by
  have hplaces : s'.places = s.places := by
    simp only [State.places, State.cexecHeld, State.iexecHeld, hready, hwait, hcexec, hiexec,
      hactive]
  rw [hplaces, h.places t]
  exact if_congr (by rw [State.Live, State.Live, hcreated, hactive]) rfl rfl

/-- A task between its pop and its insertion is in no queue, and not with the
other executor. -/
theorem Core.held_count (h : Core s) {e : Nat} (hheld : s.cexecPc.held = some e) :
    s.taskReadyQueue.count e = 0 ∧ s.waitQueue.count e = 0 ∧ s.iexecHeld.count e = 0 := by
  have hcount := h.places e
  rw [count_places, cexecHeld_some hheld] at hcount
  by_cases hactive : (s.record e).isTaskActive = true
  · rw [if_pos hactive, List.count_singleton_self] at hcount
    split at hcount <;> omega
  · have hdead : ¬ s.Live e := fun hlive => hactive hlive.2
    rw [if_neg hactive, if_neg hdead, List.count_nil] at hcount
    omega

theorem CexecPc.current_of_held {pc : CexecPc} {e : Nat} (h : pc.held = some e) :
    pc.current = some e := by
  cases pc <;> first | exact h | cases h

theorem Core.held_created (h : Core s) {e : Nat} (hheld : s.cexecPc.held = some e) :
    e ∈ s.created :=
  (h.cexecCurrent e (CexecPc.current_of_held hheld)).2

theorem Core.current_eq (h : Core s) {e : Nat} (hheld : s.cexecPc.held = some e) :
    s.cexecCurrentRunningTask = some e :=
  (h.cexecCurrent e (CexecPc.current_of_held hheld)).1

theorem Core.current_unique (h : Core s) {e c : Nat} (hheld : s.cexecPc.held = some e)
    (hcur : s.cexecCurrentRunningTask = some c) : e = c :=
  Option.some.inj ((h.current_eq hheld).symm.trans hcur)

/-- The code that runs is that of the task the scheduler has switched to. -/
theorem Core.task_eq (h : Core s) {e t : Nat} (hheld : s.cexecPc.held = some e)
    (hrun : s.cexecPc.running = some t) : t = e :=
  Option.some.inj ((h.running t hrun).symm.trans hheld)

theorem malloced_not_created (h : Core s) : s.malloced ∉ s.created :=
  fun hmem => absurd (h.malloced _ hmem) (Nat.lt_irrefl _)

/-- `sut_create` adds a task to `taskReadyQueue`. -/
theorem sutCreate_core (h : Core s) (hinit : s.mainPc ≠ .initCexec ∧ s.mainPc ≠ .initIexec)
    (junk : IoOperationData) : Core (s.sutCreate junk) := by
  have hnew := malloced_not_created h
  have hrecord : ∀ t ∈ s.created, (s.sutCreate junk).record t = s.record t := by
    intro t ht
    exact record_setRecord_ne s _ fun heq => hnew (heq ▸ ht)
  have hself : (s.sutCreate junk).record s.malloced
      = ⟨⟨s.malloced, .entry⟩, true, .noIoOpRequested, junk⟩ := record_setRecord_self s _ _
  have hcreated : (s.sutCreate junk).created = s.created ++ [s.malloced] := rfl
  refine ⟨fun hpc => ?_, h.shutdown, fun t ht => ?_, fun t ht => ?_, fun e he => ?_,
    fun e he => ?_, h.running, fun e he => ?_, h.iexecPeeked, fun e he => ?_, fun t => ?_⟩
  · exact absurd hpc (not_or.mpr hinit)
  · rcases List.mem_append.mp ht with ht | ht
    · exact Nat.lt_succ_of_lt (h.malloced t ht)
    · rw [List.mem_singleton.mp ht]
      exact Nat.lt_succ_self _
  · rcases List.mem_append.mp ht with ht | ht
    · rw [hrecord t ht]
      exact h.context t ht
    · rw [List.mem_singleton.mp ht, hself]
  · show (s.taskReadyQueue ++ [s.malloced]).head? = some e
    rw [List.head?_append, h.cexecPeeked e he]
    rfl
  · obtain ⟨hcur, hmem⟩ := h.cexecCurrent e he
    exact ⟨hcur, List.mem_append_left _ hmem⟩
  · have hpc : s.cexecPc = .insert e := he
    rw [hrecord e (h.cexecCurrent e (by rw [hpc]; rfl)).2]
    exact h.inserting e he
  · obtain ⟨hcur, hmem⟩ := h.iexecCurrent e he
    exact ⟨hcur, List.mem_append_left _ hmem⟩
  · -- The popped task of `cexecScheduler` is an old one, so its record is the same.
    have hheld : (s.sutCreate junk).cexecHeld = s.cexecHeld := by
      cases hpc : s.cexecPc.held with
      | none => rw [cexecHeld_none hpc, cexecHeld_none (s := s.sutCreate junk) hpc]
      | some e =>
          rw [cexecHeld_some hpc, cexecHeld_some (s := s.sutCreate junk) hpc,
            hrecord e (h.held_created hpc)]
    have hcount : (s.sutCreate junk).places.count t
        = s.places.count t + if s.malloced = t then 1 else 0 := by
      rw [count_places, count_places, hheld]
      show (s.taskReadyQueue ++ [s.malloced]).count t + s.waitQueue.count t
        + s.cexecHeld.count t + s.iexecHeld.count t = _
      rw [List.count_append, List.count_singleton]
      simp only [beq_iff_eq]
      omega
    rw [hcount, h.places t]
    by_cases ht : s.malloced = t
    · have hdead : ¬ s.Live t := fun hlive => hnew (ht ▸ hlive.1)
      have hlive : (s.sutCreate junk).Live t := by
        refine ⟨List.mem_append_right _ (ht ▸ List.mem_singleton_self _), ?_⟩
        rw [← ht, hself]
      rw [if_neg hdead, if_pos ht, if_pos hlive]
    · rw [if_neg ht, Nat.add_zero]
      refine if_congr ⟨fun hlive => ⟨List.mem_append_left _ hlive.1, ?_⟩, fun hlive => ?_⟩ rfl rfl
      · rw [hrecord t hlive.1]
        exact hlive.2
      · obtain ⟨hmem, hactive⟩ := hlive
        have hold : t ∈ s.created := by
          rcases List.mem_append.mp hmem with hmem | hmem
          · exact hmem
          · exact absurd (List.mem_singleton.mp hmem).symm ht
        exact ⟨hold, hrecord t hold ▸ hactive⟩

/-- An assignment to the record of the task `cexecScheduler` holds. -/
theorem assign_places (h : Core s) {e : Nat} (hheld : s.cexecPc.held = some e) (r : QueueEntry)
    {pc : CexecPc} (hpc : pc.held = some e) (t : Nat) :
    ({ s.setRecord e r with cexecPc := pc } : State).places.count t
      = if ({ s.setRecord e r with cexecPc := pc } : State).Live t then 1 else 0 := by
  have hmem := h.held_created hheld
  by_cases ht : t = e
  · obtain ⟨hready, hwait, hiexec⟩ := h.held_count hheld
    have hself : ({ s.setRecord e r with cexecPc := pc } : State).record e = r :=
      record_setRecord_self s e r
    have hlive : ({ s.setRecord e r with cexecPc := pc } : State).Live e
        ↔ r.isTaskActive = true := by
      rw [State.Live, hself]
      exact ⟨fun hl => hl.2, fun hr => ⟨hmem, hr⟩⟩
    rw [ht, count_places, cexecHeld_some (e := e) hpc, hself]
    show s.taskReadyQueue.count e + s.waitQueue.count e + _ + s.iexecHeld.count e = _
    rw [hready, hwait, hiexec]
    by_cases hr : r.isTaskActive = true
    · rw [if_pos hr, if_pos (hlive.mpr hr), List.count_singleton_self]
    · rw [if_neg hr, if_neg fun hl => hr (hlive.mp hl), List.count_nil]
  · have hcount := h.places t
    rw [count_places] at hcount ⊢
    have hother : ∀ q : State, q.cexecPc.held = some e → q.cexecHeld.count t = 0 := by
      intro q hq
      rw [cexecHeld_some hq]
      split
      · exact List.count_eq_zero.mpr fun hm => ht (List.mem_singleton.mp hm)
      · rfl
    rw [hother s hheld] at hcount
    rw [hother _ hpc]
    show s.taskReadyQueue.count t + s.waitQueue.count t + 0 + s.iexecHeld.count t = _
    rw [hcount]
    refine if_congr ?_ rfl rfl
    show (t ∈ s.created ∧ _) ↔ (t ∈ s.created ∧ ((s.setRecord e r).record t).isTaskActive = true)
    rw [record_setRecord_ne s r ht]

/-- `cexecScheduler` pops the task it has seen. -/
theorem pop_places (h : Core s) {e : Nat} (hpc : s.cexecPc = .pop e) (t : Nat) :
    ({ s with taskReadyQueue := s.taskReadyQueue.tail, cexecPc := .swap e } : State).places.count t
      = if s.Live t then 1 else 0 := by
  obtain ⟨rest, hready⟩ := List.head?_eq_some_iff.mp (h.cexecPeeked e (by rw [hpc]; rfl))
  have hactive := (h.live_of_ready (t := e) (by rw [hready]; exact List.mem_cons_self)).2
  rw [← h.places t, count_places, count_places, cexecHeld_none (s := s) (by rw [hpc]; rfl),
    cexecHeld_some (e := e) rfl, if_pos hactive]
  show s.taskReadyQueue.tail.count t + s.waitQueue.count t + [e].count t + s.iexecHeld.count t = _
  rw [hready, List.tail_cons]
  simp only [List.count_cons, List.count_nil]
  omega

/-- `iexecScheduler` pops the task it has seen. -/
theorem iexecPop_places (h : Core s) {e : Nat} (hpc : s.iexecPc = .pop e) (t : Nat) :
    ({ s with waitQueue := s.waitQueue.tail, iexecPc := .serve e } : State).places.count t
      = if s.Live t then 1 else 0 := by
  obtain ⟨rest, hwait⟩ := List.head?_eq_some_iff.mp (h.iexecPeeked e (by rw [hpc]; rfl))
  rw [← h.places t, count_places, count_places, iexecHeld_none (s := s) (by rw [hpc]; rfl),
    iexecHeld_some (e := e) rfl]
  show s.taskReadyQueue.count t + s.waitQueue.tail.count t + s.cexecHeld.count t + [e].count t = _
  rw [hwait, List.tail_cons]
  simp only [List.count_cons, List.count_nil]
  omega

/-- `cexecScheduler` puts its task in a queue. -/
theorem insert_places (h : Core s) {e : Nat} (hpc : s.cexecPc = .insert e) (t : Nat) :
    s.taskReadyQueue.count t + s.waitQueue.count t + [e].count t + s.iexecHeld.count t
      = if s.Live t then 1 else 0 := by
  rw [← h.places t, count_places, cexecHeld_some (e := e) (by rw [hpc]; rfl),
    if_pos (h.inserting e hpc)]

theorem answer_isTaskActive (r : QueueEntry) (rc : Int) :
    (r.answer rc).isTaskActive = r.isTaskActive := by
  unfold QueueEntry.answer
  split
  · split <;> rfl
  · rfl
  · rfl

theorem answer_context (r : QueueEntry) (rc : Int) : (r.answer rc).context = r.context := by
  unfold QueueEntry.answer
  split
  · split <;> rfl
  · rfl
  · rfl

/-! ## The invariant of every run -/

theorem CexecIdle.held {pc : CexecPc} (h : CexecIdle s pc) :
    s.cexecPc.held = none ∧ pc.held = none ∧ pc.current = none ∧ pc.peeked = none := by
  cases h with
  | empty hpc | bothEmpty hpc | notEmpty hpc | isShutdown hpc | cexecNull hpc | iexecNull hpc
  | failed hpc => exact ⟨by rw [hpc]; rfl, rfl, rfl, rfl⟩

theorem IexecIdle.held {pc : IexecPc} (h : IexecIdle s pc) :
    s.iexecPc.held = none ∧ pc.held = none ∧ pc.current = none ∧ pc.peeked = none := by
  cases h with
  | empty hpc | bothEmpty hpc | notEmpty hpc | isShutdown hpc | cexecNull hpc | iexecNull hpc
  | failed hpc => exact ⟨by rw [hpc]; rfl, rfl, rfl, rfl⟩

theorem CexecIdle.not_running {pc : CexecPc} (h : CexecIdle s pc) :
    pc.running = none ∧ ∀ e, pc ≠ .insert e := by
  cases h <;> exact ⟨rfl, nofun⟩

/-- What the scheduler's code does with the task it holds, as long as the record
keeps the task and its activity: the places stay as they are. -/
theorem Core.move (h : Core s) {e : Nat} (hheld : s.cexecPc.held = some e) (pc : CexecPc)
    (hpc : pc.held = some e) (hpeek : pc.peeked = none)
    (hrun : ∀ t, pc.running = some t → t = e)
    (hins : ∀ i, pc = .insert i → (s.record i).isTaskActive = true) :
    Core { s with cexecPc := pc } where
  early := h.early
  shutdown := h.shutdown
  malloced := h.malloced
  context := h.context
  cexecPeeked i hi := by cases hpeek.symm.trans hi
  cexecCurrent i hi := by
    obtain rfl := Option.some.inj ((CexecPc.current_of_held hpc).symm.trans hi)
    exact ⟨h.current_eq hheld, h.held_created hheld⟩
  running t ht := by rw [hrun t ht]; exact hpc
  inserting := hins
  iexecPeeked := h.iexecPeeked
  iexecCurrent := h.iexecCurrent
  places := h.places_same rfl rfl (hpc.trans hheld.symm) rfl rfl fun _ => rfl

theorem step_core (h : Core s) (hstep : s.step l = some s') : Core s' := by
  cases steps_of_step hstep with
  | initCexec hpc =>
      have hnone := h.early (Or.inl hpc)
      refine { h with
        early := fun _ => hnone
        shutdown := fun hs => (by cases hpc.symm.trans (h.shutdown hs))
        malloced := fun t ht => Nat.lt_succ_of_lt (h.malloced t ht)
        cexecCurrent := fun e he => ?_ }
      have hmem := (h.cexecCurrent e he).2
      rw [hnone] at hmem
      exact absurd hmem List.not_mem_nil
  | initIexec hpc =>
      have hnone := h.early (Or.inr hpc)
      refine { h with
        early := fun _ => hnone
        shutdown := fun hs => (by cases hpc.symm.trans (h.shutdown hs))
        malloced := fun t ht => Nat.lt_succ_of_lt (h.malloced t ht)
        iexecCurrent := fun e he => ?_ }
      have hmem := (h.iexecCurrent e he).2
      rw [hnone] at hmem
      exact absurd hmem List.not_mem_nil
  | mainCreate hpc => exact sutCreate_core h (by rw [hpc]; exact ⟨nofun, nofun⟩) _
  | shutdown hpc =>
      exact { h with
        early := fun hc => (by cases hc with | inl hc => cases hc | inr hc => cases hc)
        shutdown := fun _ => rfl }
  | @create e t junk hpc =>
      refine sutCreate_core h ?_ _
      have hmem := h.held_created (e := e) (by rw [hpc]; rfl)
      have hearly : ¬ (s.mainPc = .initCexec ∨ s.mainPc = .initIexec) := by
        intro hinit
        rw [h.early hinit] at hmem
        exact List.not_mem_nil hmem
      exact not_or.mp hearly
  | @call e t c hpc =>
      have hheld : s.cexecPc.held = some e := by rw [hpc]; rfl
      have ht : t = e := h.task_eq hheld (by rw [hpc]; rfl)
      have hmove := h.move hheld (.call e t c.body) rfl rfl
        (fun i hi => (Option.some.inj hi).symm.trans ht) nofun
      exact { hmove with }
  | @peek e hpc hhead =>
      exact { h with
        cexecPeeked := fun i hi => Option.some.inj hi ▸ hhead
        cexecCurrent := nofun
        running := nofun
        inserting := nofun
        places := h.places_same rfl rfl (by rw [hpc]; rfl) rfl rfl fun _ => rfl }
  | @setCurrent e hpc =>
      have hhead := h.cexecPeeked e (by rw [hpc]; rfl)
      have hmem := (h.live_of_ready (List.mem_of_head? hhead)).1
      exact { h with
        cexecPeeked := fun i hi => Option.some.inj hi ▸ hhead
        cexecCurrent := fun i hi => Option.some.inj hi ▸ ⟨rfl, hmem⟩
        running := nofun
        inserting := nofun
        places := h.places_same rfl rfl (by rw [hpc]; rfl) rfl rfl fun _ => rfl }
  | @pop e hpc =>
      exact { h with
        cexecPeeked := nofun
        cexecCurrent := fun i hi => Option.some.inj hi ▸ h.cexecCurrent e (by rw [hpc]; rfl)
        running := nofun
        inserting := nofun
        places := pop_places h hpc }
  | @swap e c hpc hcur =>
      have hheld : s.cexecPc.held = some e := by rw [hpc]; rfl
      obtain rfl := h.current_unique hheld hcur
      have htask := h.context e (h.held_created hheld)
      -- The context saved in the record resumes the task the record is for.
      refine h.move hheld _ ?_ ?_ (fun t ht => ?_) fun i hi => ?_
      · rw [State.resume]
        split <;> rfl
      · rw [State.resume]
        split <;> rfl
      · rw [State.resume] at ht
        split at ht <;> exact (Option.some.inj ht).symm.trans htask
      · rw [State.resume] at hi
        split at hi <;> cases hi
  | @assign e t c a assigns point hpc hcur =>
      have hheld : s.cexecPc.held = some e := by rw [hpc]; rfl
      obtain rfl := h.current_unique hheld hcur
      have ht : t = e := h.task_eq hheld (by rw [hpc]; rfl)
      refine { h with
        context := fun i hi => ?_
        cexecPeeked := nofun
        cexecCurrent := fun i hi => Option.some.inj hi ▸ ⟨hcur, h.held_created hheld⟩
        running := fun i hi => ?_
        inserting := nofun
        places := assign_places h hheld _ rfl }
      · refine Eq.trans (field_setRecord (fun r => r.context.task) ?_ i) (h.context i hi)
        cases a <;> rfl
      · exact congrArg some (ht.symm.trans (Option.some.inj hi))
  | @switch e t c point hpc hcur =>
      have hheld : s.cexecPc.held = some e := by rw [hpc]; rfl
      obtain rfl := h.current_unique hheld hcur
      have ht : t = e := h.task_eq hheld (by rw [hpc]; rfl)
      refine { h with
        context := fun i hi => ?_
        cexecPeeked := nofun
        cexecCurrent := fun i hi => Option.some.inj hi ▸ ⟨hcur, h.held_created hheld⟩
        running := nofun
        inserting := nofun
        places := assign_places h hheld _ rfl }
      refine Eq.trans (field_setRecord (fun r => r.context.task) ?_ i) (h.context i hi)
      exact ht.trans (h.context e (h.held_created hheld)).symm
  | @result e t c point hpc hcur =>
      have hheld : s.cexecPc.held = some e := by rw [hpc]; rfl
      have ht : t = e := h.task_eq hheld (by rw [hpc]; rfl)
      have hmove := h.move hheld (.run e t) rfl rfl
        (fun i hi => (Option.some.inj hi).symm.trans ht) nofun
      exact { hmove with }
  | @active e c hpc hcur hactive =>
      have hheld : s.cexecPc.held = some e := by rw [hpc]; rfl
      obtain rfl := h.current_unique hheld hcur
      exact h.move hheld (.insert e) rfl rfl nofun fun i hi => CexecPc.insert.inj hi ▸ hactive
  | @finished e c hpc hcur hexited =>
      have hheld : s.cexecPc.held = some e := by rw [hpc]; rfl
      obtain rfl := h.current_unique hheld hcur
      refine { h with
        cexecPeeked := nofun
        cexecCurrent := nofun
        running := nofun
        inserting := nofun
        places := fun t => ?_ }
      rw [count_places, cexecHeld_none (by rfl)]
      have hcount := h.places t
      rw [count_places, cexecHeld_some hheld, if_neg (by rw [hexited]; decide)] at hcount
      exact hcount
  | @insertWait e hpc htype =>
      refine { h with
        cexecPeeked := nofun
        cexecCurrent := nofun
        running := nofun
        inserting := nofun
        iexecPeeked := fun i hi => ?_
        places := fun t => ?_ }
      · show (s.waitQueue ++ [e]).head? = some i
        rw [List.head?_append, h.iexecPeeked i hi]
        rfl
      · rw [count_places, cexecHeld_none (by rfl)]
        show s.taskReadyQueue.count t + (s.waitQueue ++ [e]).count t + [].count t
          + s.iexecHeld.count t = if s.Live t then 1 else 0
        rw [← insert_places h hpc t, List.count_append, List.count_nil]
        omega
  | @insertReady e hpc htype =>
      refine { h with
        cexecPeeked := nofun
        cexecCurrent := nofun
        running := nofun
        inserting := nofun
        places := fun t => ?_ }
      rw [count_places, cexecHeld_none (by rfl)]
      show (s.taskReadyQueue ++ [e]).count t + s.waitQueue.count t + [].count t
        + s.iexecHeld.count t = if s.Live t then 1 else 0
      rw [← insert_places h hpc t, List.count_append, List.count_nil]
      omega
  | cexecIdle hidle =>
      obtain ⟨hold, hnew, hcur, hpeek⟩ := hidle.held
      obtain ⟨hrun, hins⟩ := hidle.not_running
      exact { h with
        cexecPeeked := fun i hi => (by cases hpeek.symm.trans hi)
        cexecCurrent := fun i hi => (by cases hcur.symm.trans hi)
        running := fun i hi => (by cases hrun.symm.trans hi)
        inserting := fun i hi => absurd hi (hins i)
        places := h.places_same rfl rfl (hnew.trans hold.symm) rfl rfl fun _ => rfl }
  | cexecClear hpc =>
      exact { h with
        cexecPeeked := nofun
        cexecCurrent := nofun
        running := nofun
        inserting := nofun
        places := h.places_same rfl rfl (by rw [hpc]; rfl) rfl rfl fun _ => rfl }
  | @iexecPeek e rc hpc hhead =>
      exact { h with
        iexecPeeked := fun i hi => Option.some.inj hi ▸ hhead
        iexecCurrent := nofun
        places := h.places_same rfl rfl rfl (by rw [hpc]; rfl) rfl fun _ => rfl }
  | @iexecSetCurrent e rc hpc =>
      have hhead := h.iexecPeeked e (by rw [hpc]; rfl)
      have hmem := (h.live_of_wait (List.mem_of_head? hhead)).1
      exact { h with
        iexecPeeked := fun i hi => Option.some.inj hi ▸ hhead
        iexecCurrent := fun i hi => Option.some.inj hi ▸ ⟨rfl, hmem⟩
        places := h.places_same rfl rfl rfl (by rw [hpc]; rfl) rfl fun _ => rfl }
  | @iexecPop e rc hpc =>
      exact { h with
        iexecPeeked := nofun
        iexecCurrent := fun i hi => Option.some.inj hi ▸ h.iexecCurrent e (by rw [hpc]; rfl)
        places := iexecPop_places h hpc }
  | @serve e rc hpc =>
      have hactive := field_setRecord (s := s) (fun r => r.isTaskActive)
        (answer_isTaskActive (s.record e) rc)
      refine { h with
        context := fun i hi => ?_
        inserting := fun i hi => (hactive i).trans (h.inserting i hi)
        iexecPeeked := nofun
        iexecCurrent := fun i hi => Option.some.inj hi ▸ h.iexecCurrent e (by rw [hpc]; rfl)
        places := h.places_same rfl rfl rfl (by rw [hpc]; rfl) rfl hactive }
      refine Eq.trans (field_setRecord (fun r => r.context.task) ?_ i) (h.context i hi)
      rw [answer_context]
  | @reset e rc hpc =>
      have hactive := field_setRecord (s := s) (fun r => r.isTaskActive) (e := e)
        (r := { s.record e with ioOperationType := .noIoOpRequested }) rfl
      exact { h with
        context := fun i hi => Eq.trans
          (field_setRecord (fun r => r.context.task) (by rfl) i) (h.context i hi)
        inserting := fun i hi => (hactive i).trans (h.inserting i hi)
        iexecPeeked := nofun
        iexecCurrent := fun i hi => Option.some.inj hi ▸ h.iexecCurrent e (by rw [hpc]; rfl)
        places := h.places_same rfl rfl rfl (by rw [hpc]; rfl) rfl hactive }
  | @iexecInsert e rc hpc =>
      refine { h with
        cexecPeeked := fun i hi => ?_
        iexecPeeked := nofun
        iexecCurrent := nofun
        places := fun t => ?_ }
      · show (s.taskReadyQueue ++ [e]).head? = some i
        rw [List.head?_append, h.cexecPeeked i hi]
        rfl
      · have hcount := h.places t
        rw [count_places, iexecHeld_some (e := e) (by rw [hpc]; rfl)] at hcount
        rw [count_places, iexecHeld_none (by rfl)]
        show (s.taskReadyQueue ++ [e]).count t + s.waitQueue.count t + s.cexecHeld.count t
          + [].count t = if s.Live t then 1 else 0
        rw [← hcount, List.count_append, List.count_nil]
        omega
  | iexecIdle hidle =>
      obtain ⟨hold, hnew, hcur, hpeek⟩ := hidle.held
      exact { h with
        iexecPeeked := fun i hi => (by cases hpeek.symm.trans hi)
        iexecCurrent := fun i hi => (by cases hcur.symm.trans hi)
        places := h.places_same rfl rfl rfl (hnew.trans hold.symm) rfl fun _ => rfl }
  | iexecClear hpc =>
      exact { h with
        iexecPeeked := nofun
        iexecCurrent := nofun
        places := h.places_same rfl rfl rfl (by rw [hpc]; rfl) rfl fun _ => rfl }

theorem reachable_core (h : system.Reachable s) : Core s :=
  System.Reachable.invariant (S := system) (I := Core) (fun _ hs => hs ▸ Core.start)
    (fun _ _ _ hc hs => step_core hc hs) h

end OsConcepts.Sut
