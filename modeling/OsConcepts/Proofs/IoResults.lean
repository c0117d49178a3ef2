import OsConcepts.Proofs.IoRequests

/-!
# The results the tasks get

A result goes from `iexecScheduler` to the record of the task, stays there while
the task waits its turn, and is read through `cexecCurrentRunningTask` when the
task is resumed. `Answered` says of a task that is to read a result which of its
calls it comes from and, once that is served, that the record has it. An `open`
that fails stores nothing, so this needs the condition that a failing `open` finds
its own result in the record.
-/

namespace OsConcepts.Sut

open OsConcepts

variable {s s' : State} {l : Label}

/-! ## The point a task is at -/

/-- Where the running task is, as if it had saved its context. -/
def CexecPc.pointOf : CexecPc → Nat → Option Point
  | .run _ t, i => if t = i then some .returned else none
  | .call _ t body, i => if t = i then some body.point else none
  | .result _ t point, i => if t = i then some point else none
  | _, _ => none

/-- Where a task is resumed. -/
def State.point (s : State) (t : Nat) : Point :=
  (s.cexecPc.pointOf t).getD (s.record t).context.point

theorem pointOf_not_running {pc : CexecPc} {i : Nat} (h : pc.running ≠ some i) :
    pc.pointOf i = none := by
  cases pc with
  | run e t | call e t body | result e t point => exact if_neg fun heq => h (congrArg some heq)
  | _ => rfl

theorem point_not_running {t : Nat} (h : s.cexecPc.running ≠ some t) :
    s.point t = (s.record t).context.point := by
  rw [State.point, pointOf_not_running h]
  rfl

theorem resume_running (e : Nat) (c : Context) : (State.resume e c).running = some c.task := by
  rw [State.resume]
  split <;> rfl

theorem resume_pointOf (e : Nat) (c : Context) :
    (State.resume e c).pointOf c.task = some c.point ∨
      (State.resume e c).pointOf c.task = some .returned ∧ c.point = .entry := by
  rw [State.resume]
  cases hp : c.point with
  | entry => exact Or.inr ⟨if_pos rfl, rfl⟩
  | returned | openReturn | readReturn => exact Or.inl (if_pos rfl)

/-- Apart from calls, a task stays at its point until it has read its result, or
starts. -/
theorem point_step (hc : Core s) (hstep : s.step l = some s') (hcall : ∀ c, l ≠ .call c)
    {i : Nat} (hi : i ∈ s.created) :
    s'.point i = s.point i ∨ s'.point i = .returned ∧
      (s.point i = .entry ∨ ∃ e c point, s.cexecPc = .result e i point ∧
        s'.returns = s.returns ++ s.returned i (s.record c) point) := by
  have hcreate : ∀ junk, (s.sutCreate junk).record i = s.record i := fun junk =>
    record_setRecord_ne s _ fun heq => malloced_not_created hc (heq ▸ hi)
  cases steps_of_step hstep with
  | call => exact absurd rfl (hcall _)
  | initCexec | initIexec | shutdown | iexecPeek | iexecSetCurrent | iexecPop | iexecInsert
  | iexecClear | iexecIdle => exact Or.inl rfl
  | mainCreate | create =>
      exact Or.inl (congrArg (fun r : QueueEntry => (s.cexecPc.pointOf i).getD r.context.point)
        (hcreate _))
  | peek hpc | setCurrent hpc | pop hpc | active hpc | finished hpc | insertWait hpc
  | insertReady hpc | cexecClear hpc =>
      left
      rw [State.point, State.point, hpc]
      rfl
  | cexecIdle hidle =>
      have hold : s.cexecPc.running ≠ some i := by
        intro hrun
        cases hidle.held.1.symm.trans (hc.running i hrun)
      refine Or.inl (Eq.trans (point_not_running fun hrun => ?_) (point_not_running hold).symm)
      cases hidle.not_running.1.symm.trans hrun
  | @swap e c hpc hcur =>
      have hheld : s.cexecPc.held = some e := by rw [hpc]; rfl
      obtain rfl := hc.current_unique hheld hcur
      have htask := hc.context e (hc.held_created hheld)
      have hbefore : s.point i = (s.record i).context.point :=
        point_not_running (by rw [hpc]; exact nofun)
      rw [hbefore]
      by_cases hie : i = e
      · subst hie
        rw [State.point]
        rcases resume_pointOf i (s.record i).context with hsame | ⟨hret, hentry⟩
        · rw [htask] at hsame
          exact Or.inl (by rw [hsame]; rfl)
        · rw [htask] at hret
          exact Or.inr ⟨by rw [hret]; rfl, Or.inl hentry⟩
      · refine Or.inl (point_not_running fun hrun => hie ?_)
        exact (Option.some.inj ((resume_running _ _).symm.trans hrun)).symm.trans htask
  | @result e t c point hpc hcur =>
      by_cases hti : t = i
      · refine Or.inr ⟨?_, Or.inr ⟨e, c, point, hti ▸ hpc, hti ▸ rfl⟩⟩
        rw [State.point, CexecPc.pointOf, if_pos hti]
        rfl
      · left
        rw [State.point, State.point, hpc, CexecPc.pointOf, if_neg hti, CexecPc.pointOf,
          if_neg hti]
  | @assign e t c a assigns point hpc hcur =>
      have hpoint := field_setRecord (s := s) (fun r => r.context.point) (e := c)
        (r := a.apply (s.record c)) (by cases a <;> rfl) i
      left
      rw [State.point, State.point, hpc]
      exact congrArg _ hpoint
  | @switch e t c point hpc hcur =>
      have hheld : s.cexecPc.held = some e := by rw [hpc]; rfl
      obtain rfl := hc.current_unique hheld hcur
      have ht : t = e := hc.task_eq hheld (by rw [hpc]; rfl)
      refine Or.inl (Eq.trans (point_not_running (by exact nofun)) ?_)
      by_cases hie : i = e
      · rw [State.point, hpc, CexecPc.pointOf, if_pos (ht.trans hie.symm), hie]
        exact congrArg (fun r => r.context.point) (record_setRecord_self s e _)
      · rw [point_not_running fun hrun => hie (hc.task_eq hheld hrun)]
        exact congrArg (fun r => r.context.point) (record_setRecord_ne s _ hie)
  | @serve e rc hpc =>
      exact Or.inl (congrArg (fun c : Context => (s.cexecPc.pointOf i).getD c.point)
        (field_setRecord (s := s) (fun r => r.context) (answer_context (s.record e) rc) i))
  | @reset e rc hpc =>
      exact Or.inl (congrArg (fun c : Context => (s.cexecPc.pointOf i).getD c.point)
        (field_setRecord (s := s) (fun r => r.context) (e := e)
          (r := { s.record e with ioOperationType := .noIoOpRequested }) rfl i))

/-- A new task is at its start. -/
theorem point_new (hc : Core s) (hstep : s.step l = some s') {i : Nat} (hi : i ∉ s.created)
    (hi' : i ∈ s'.created) : s'.point i = .entry := by
  have hnew : ∀ junk, i ∈ (s.sutCreate junk).created → (s.sutCreate junk).point i = .entry := by
    intro junk hmem
    obtain rfl := List.mem_singleton.mp ((List.mem_append.mp hmem).resolve_left hi)
    have hrun : (s.sutCreate junk).cexecPc.running ≠ some s.malloced := fun hrun =>
      hi (hc.held_created (hc.running _ hrun))
    rw [point_not_running hrun]
    exact congrArg (fun r => r.context.point) (record_setRecord_self s s.malloced _)
  cases steps_of_step hstep with
  | mainCreate | create => exact hnew _ hi'
  | _ => exact absurd hi' hi

/-- The two fields a result is read from. -/
def QueueEntry.results (r : QueueEntry) : Int × Ptr :=
  (r.ioOperationData.openFile.returnVal, r.ioOperationData.readFile.returnVal)

/-- Only `iexecScheduler` assigns to them, when it serves the task. -/
theorem results_step (hc : Core s) (hstep : s.step l = some s')
    (hserve : ∀ e rc, s.iexecPc = .serve e → l ≠ .iexec rc) {i : Nat} (hi : i ∈ s.created) :
    (s'.record i).results = (s.record i).results := by
  cases steps_of_step hstep with
  | serve hpc => exact absurd rfl (hserve _ _ hpc)
  | mainCreate | create =>
      exact congrArg _ (record_setRecord_ne s _ fun heq => malloced_not_created hc (heq ▸ hi))
  | @assign e t c a =>
      refine field_setRecord QueueEntry.results ?_ i
      cases a <;> rfl
  | switch | reset => exact field_setRecord QueueEntry.results (by rfl) i
  | _ => rfl

/-! ## What the record will give -/

/-- A task resumed at this point gets the result of its last call. -/
def Answers (s : State) (t : Nat) : Point → Prop
  | .openReturn => ∃ fname, (s.callsOf t).getLast? = some (.openFile fname) ∧
      (s.owed t = none → ∃ rc, (s.servedOf t).getLast? = some (.openFile fname, rc) ∧
        (s.record t).ioOperationData.openFile.returnVal = rc)
  | .readReturn => ∃ fd buf size, (s.callsOf t).getLast? = some (.readFile fd buf size) ∧
      (s.owed t = none → ∃ rc, (s.servedOf t).getLast? = some (.readFile fd buf size, rc) ∧
        (s.record t).ioOperationData.readFile.returnVal = if 0 ≤ rc then buf else 0)
  | _ => True

def Answered (s : State) : Prop := ∀ t ∈ s.created, Answers s t (s.point t)

theorem Answered.start : Answered start := fun _ h => absurd h List.not_mem_nil

theorem Answers.same {t : Nat} {point : Point} (h : Answers s t point)
    (hcalls : s'.callsOf t = s.callsOf t) (hserved : s'.servedOf t = s.servedOf t)
    (howed : s'.owed t = s.owed t)
    (hrec : (s'.record t).results = (s.record t).results) : Answers s' t point := by
  have hopen := congrArg Prod.fst hrec
  have hread := congrArg Prod.snd hrec
  simp only [QueueEntry.results] at hopen hread
  cases point with
  | entry | returned => trivial
  | openReturn =>
      rw [Answers, hcalls, hserved, howed, hopen]
      exact h
  | readReturn =>
      rw [Answers, hcalls, hserved, howed, hread]
      exact h

/-- The comparison that sees all but the descriptor of a `close`. -/
def Request.exceptClose : Request → Request
  | .closeFile _ => .closeFile 0
  | r => r

/-- The condition on a step: an `open` succeeds, or fails with what `returnVal` is
already. -/
def OpenKept (s : State) : Label → Prop
  | .iexec rc => ∀ e ∈ s.unserved, (s.record e).ioOperationType = .openOp →
      0 ≤ rc ∨ (s.record e).ioOperationData.openFile.returnVal = rc
  | _ => True

instance (s : State) : DecidablePred (OpenKept s)
  | .iexec rc => inferInstanceAs (Decidable (∀ e ∈ s.unserved, _ = _ → 0 ≤ rc ∨ _ = rc))
  | .main | .mainCreate _ | .shutdown | .create _ | .call _ | .cexec => .isTrue trivial

/-- The last call of a task that is owed something is what it is owed. -/
theorem last_call_owed (h : Logged Request.exceptClose s) {t : Nat} {r req : Request}
    (howed : s.owed t = some r) (hlast : (s.callsOf t).getLast? = some req) :
    req.exceptClose = r.exceptClose := by
  have hlog := h t
  rw [howed] at hlog
  have hmap := congrArg List.getLast? hlog
  rw [List.getLast?_map, hlast] at hmap
  simpa using hmap

theorem answer_open {r : QueueEntry} {rc : Int} {fname : Ptr}
    (h : r.request = some (.openFile fname))
    (hok : r.ioOperationType = .openOp →
      0 ≤ rc ∨ r.ioOperationData.openFile.returnVal = rc) :
    (r.answer rc).ioOperationData.openFile.returnVal = rc := by
  unfold QueueEntry.request at h
  split at h <;> cases h
  next htype =>
    rw [QueueEntry.answer, htype]
    dsimp only
    split
    · rfl
    · next hneg => exact (hok htype).resolve_left hneg

theorem answer_read {r : QueueEntry} {rc fd size : Int} {buf : Ptr}
    (h : r.request = some (.readFile fd buf size)) :
    (r.answer rc).ioOperationData.readFile.returnVal = if 0 ≤ rc then buf else 0 := by
  unfold QueueEntry.request at h
  split at h <;> cases h
  next htype => rw [QueueEntry.answer, htype]

/-- The result of a system call goes to the record of the task it was made for. -/
theorem serve_answers (hc : Core s) (ht : Typed s) (hlog : Logged Request.exceptClose s)
    (h : Answered s) {e : Nat} {rc : Int} (hpc : s.iexecPc = .serve e)
    (hok : (s.record e).ioOperationType = .openOp →
      0 ≤ rc ∨ (s.record e).ioOperationData.openFile.returnVal = rc) :
    Answered { s.setRecord e ((s.record e).answer rc) with
      served := s.served ++ ((s.record e).request.map fun r => (e, r, rc)).toList
      iexecPc := .reset e } := by
  obtain ⟨r, hr, howed⟩ := owed_serve hc ht hpc
  intro i hmem
  have howed' := serve_owed hpc ((s.record e).answer rc)
    (s.served ++ ((s.record e).request.map fun r => (e, r, rc)).toList) i
  have hctx := field_setRecord (s := s) (fun r => r.context)
    (answer_context (s.record e) rc) i
  have hpoint : State.point { s.setRecord e ((s.record e).answer rc) with
      served := s.served ++ ((s.record e).request.map fun r => (e, r, rc)).toList
      iexecPc := .reset e } i = s.point i :=
    congrArg (fun c : Context => (s.cexecPc.pointOf i).getD c.point) hctx
  rw [hpoint]
  by_cases hi : i = e
  · subst hi
    have hlast : (Journal.of (s.served ++
        ((s.record i).request.map fun r => (i, r, rc)).toList) i).getLast? = some (r, rc) := by
      rw [hr]
      show (Journal.of (s.served ++ [(i, r, rc)]) i).getLast? = _
      rw [Journal.of_append_self, List.getLast?_concat]
    have hself := record_setRecord_self s i ((s.record i).answer rc)
    have hbefore := h i hmem
    cases hp : s.point i with
    | entry | returned => trivial
    | openReturn =>
        rw [hp] at hbefore
        obtain ⟨fname, hcall, -⟩ := hbefore
        obtain rfl : r = .openFile fname := by
          have hsame := last_call_owed hlog howed hcall
          cases r <;> simp [Request.exceptClose] at hsame ⊢
          exact hsame.symm
        refine ⟨fname, hcall, fun _ => ⟨rc, hlast, ?_⟩⟩
        exact (congrArg (fun q => q.ioOperationData.openFile.returnVal) hself).trans
          (answer_open hr hok)
    | readReturn =>
        rw [hp] at hbefore
        obtain ⟨fd, buf, size, hcall, -⟩ := hbefore
        obtain rfl : r = .readFile fd buf size := by
          have hsame := last_call_owed hlog howed hcall
          cases r <;> simp [Request.exceptClose] at hsame ⊢
          exact ⟨hsame.1.symm, hsame.2.1.symm, hsame.2.2.symm⟩
        refine ⟨fd, buf, size, hcall, fun _ => ⟨rc, hlast, ?_⟩⟩
        exact (congrArg (fun q => q.ioOperationData.readFile.returnVal) hself).trans
          (answer_read hr)
  · rw [if_neg hi] at howed'
    refine (h i hmem).same rfl ?_ howed' (congrArg _ (record_setRecord_ne s _ hi))
    rw [hr]
    exact Journal.of_append_ne s.served (r, rc) fun heq => hi heq.symm

/-- The running task has made a call, and is owed its result. -/
theorem call_answered (hc : Core s) (ht : Typed s) (h : Answered s) {e t : Nat} {c : Call}
    (hpc : s.cexecPc = .run e t) :
    Answered { s with
      calls := s.calls ++ (c.request.map fun r => (t, r)).toList
      cexecPc := .call e t c.body } := by
  intro i hmem
  by_cases hi : t = i
  · subst hi
    have howed := call_owed hc ht hpc c t
    rw [if_pos rfl] at howed
    rw [State.point, CexecPc.pointOf, if_pos rfl]
    cases c with
    | yield | exit => trivial
    | io r =>
        have hlast : (Journal.of (s.calls ++ [(t, r)]) t).getLast? = some r := by
          rw [Journal.of_append_self, List.getLast?_concat]
        cases r with
        | openFile fname => exact ⟨fname, hlast, fun hnone => by cases howed.symm.trans hnone⟩
        | readFile fd buf size =>
            exact ⟨fd, buf, size, hlast, fun hnone => by cases howed.symm.trans hnone⟩
        | writeFile | closeFile => trivial
  · have howed := call_owed hc ht hpc c i
    rw [if_neg hi] at howed
    have hpoint : State.point { s with
        calls := s.calls ++ (c.request.map fun r => (t, r)).toList
        cexecPc := .call e t c.body } i = s.point i := by
      rw [State.point, State.point, hpc, CexecPc.pointOf, if_neg hi, CexecPc.pointOf, if_neg hi]
    rw [hpoint]
    refine (h i hmem).same ?_ rfl howed rfl
    cases c with
    | yield | exit => exact congrArg (Journal.of · i) (List.append_nil s.calls)
    | io r => exact Journal.of_append_ne s.calls r hi

theorem step_answered (hc : Core s) (ht : Typed s) (hlog : Logged Request.exceptClose s)
    (h : Answered s) (hok : OpenKept s l) (hstep : s.step l = some s') : Answered s' := by
  have hkept := journals_kept hc ht hstep
  have hquiet : (∀ c, l ≠ .call c) → (∀ e rc, s.iexecPc = .serve e → l ≠ .iexec rc) →
      Answered s' := by
    intro hcall hserve i hi'
    by_cases hi : i ∈ s.created
    · obtain ⟨hcalls, hserved, howed⟩ := hkept hcall hserve
      rcases point_step hc hstep hcall hi with hsame | ⟨hret, -⟩
      · rw [hsame]
        refine (h i hi).same ?_ ?_ (howed i) (results_step hc hstep hserve hi)
        · rw [State.callsOf, State.callsOf, hcalls]
        · rw [State.servedOf, State.servedOf, hserved]
      · rw [hret]
        trivial
    · rw [point_new hc hstep hi hi']
      trivial
  cases steps_of_step hstep with
  | call hpc => exact call_answered hc ht h hpc
  | @serve e rc hpc =>
      exact serve_answers hc ht hlog h hpc
        (hok e (by rw [State.unserved, hpc]; exact List.mem_singleton_self e))
  | iexecPeek hpc | iexecSetCurrent hpc | iexecPop hpc | iexecInsert hpc | iexecClear hpc
  | reset hpc =>
      refine hquiet (fun c hl => ?_) fun e _ hserve => ?_
      · cases hl
      · cases hpc.symm.trans hserve
  | iexecIdle hidle =>
      refine hquiet (fun c hl => ?_) fun e _ hserve => ?_
      · cases hl
      · cases hidle.held.1.symm.trans (congrArg IexecPc.held hserve)
  | _ =>
      refine hquiet (fun c hl => ?_) fun e rc _ hl => ?_
      · cases hl
      · cases hl

/-! ## What the tasks got -/

/-- A result is that of the system call made for the very call: the number `open`
returned, the buffer of a `read` that succeeded, `NULL` for one that failed. -/
def Right (s : State) : Return → Prop
  | .openFile t k value => ∃ fname, (s.callsOf t)[k]? = some (.openFile fname) ∧
      (s.servedOf t)[k]? = some (.openFile fname, value)
  | .readFile t k value => ∃ fd buf size rc,
      (s.callsOf t)[k]? = some (.readFile fd buf size) ∧
      (s.servedOf t)[k]? = some (.readFile fd buf size, rc) ∧
      value = if 0 ≤ rc then buf else 0

/-- A call that has a result has returned it. -/
def Got (s : State) (t k : Nat) : Request → Prop
  | .openFile _ => ∃ value, .openFile t k value ∈ s.returns
  | .readFile .. => ∃ value, .readFile t k value ∈ s.returns
  | _ => True

/-- Where a call with a result reads it. -/
def Request.resultPoint : Request → Option Point
  | .openFile _ => some .openReturn
  | .readFile .. => some .readReturn
  | _ => none

/-- The calls have returned, but for the last of a task that is to read its
result; a task not yet created has made none. -/
structure Returned (s : State) : Prop where
  right : ∀ r ∈ s.returns, Right s r
  got : ∀ t ∈ s.created, ∀ k r, (s.callsOf t)[k]? = some r →
    Got s t k r ∨ k + 1 = (s.callsOf t).length ∧ r.resultPoint = some (s.point t)
  uncalled : ∀ t, t ∉ s.created → s.callsOf t = []

theorem Returned.start : Returned start where
  right _ h := absurd h List.not_mem_nil
  got _ h := absurd h List.not_mem_nil
  uncalled _ _ := rfl

/-- Nothing is struck from the journals. -/
theorem journals_grow (hstep : s.step l = some s') :
    ∃ cs ds, s'.calls = s.calls ++ cs ∧ s'.served = s.served ++ ds := by
  cases steps_of_step hstep with
  | call => exact ⟨_, [], rfl, (List.append_nil _).symm⟩
  | serve => exact ⟨[], _, (List.append_nil _).symm, rfl⟩
  | _ => exact ⟨[], [], (List.append_nil _).symm, (List.append_nil _).symm⟩

theorem Right.step {r : Return} (h : Right s r) (hstep : s.step l = some s') : Right s' r := by
  obtain ⟨cs, ds, hcalls, hserved⟩ := journals_grow hstep
  cases r with
  | openFile t k value =>
      obtain ⟨fname, hcall, hserve⟩ := h
      refine ⟨fname, ?_, ?_⟩
      · rw [State.callsOf, hcalls]
        exact Journal.getElem?_of_append hcall cs
      · rw [State.servedOf, hserved]
        exact Journal.getElem?_of_append hserve ds
  | readFile t k value =>
      obtain ⟨fd, buf, size, rc, hcall, hserve, hvalue⟩ := h
      refine ⟨fd, buf, size, rc, ?_, ?_, hvalue⟩
      · rw [State.callsOf, hcalls]
        exact Journal.getElem?_of_append hcall cs
      · rw [State.servedOf, hserved]
        exact Journal.getElem?_of_append hserve ds

/-- What a resumed task reads is the answer to its last call. -/
theorem returned_right (hc : Core s) (ht : Typed s) (hlog : Logged Request.exceptClose s)
    (h : Answered s) {e t c : Nat} {point : Point} (hpc : s.cexecPc = .result e t point)
    (hcur : s.cexecCurrentRunningTask = some c) :
    ∀ r ∈ s.returned t (s.record c) point, Right s r := by
  have hheld : s.cexecPc.held = some e := by rw [hpc]; rfl
  obtain rfl := hc.current_unique hheld hcur
  obtain rfl : t = e := hc.task_eq hheld (by rw [hpc]; rfl)
  have hnone := owed_resumed ht (t := t) (by rw [hpc]; rfl)
  have hanswer := h t (hc.held_created hheld)
  have hpoint : s.point t = point := by
    rw [State.point, hpc, CexecPc.pointOf, if_pos rfl]
    rfl
  have hlength : (s.servedOf t).length = (s.callsOf t).length := by
    have hlogt := congrArg List.length (hlog t)
    rw [hnone] at hlogt
    simpa using hlogt.symm
  rw [hpoint] at hanswer
  intro r hr
  cases point with
  | entry | returned => exact absurd hr List.not_mem_nil
  | openReturn =>
      obtain rfl := List.mem_singleton.mp hr
      obtain ⟨fname, hcall, hserved⟩ := hanswer
      obtain ⟨rc, hserve, hvalue⟩ := hserved hnone
      rw [List.getLast?_eq_getElem?] at hcall hserve
      rw [hlength] at hserve
      exact ⟨fname, hcall, hvalue ▸ hserve⟩
  | readReturn =>
      obtain rfl := List.mem_singleton.mp hr
      obtain ⟨fd, buf, size, hcall, hserved⟩ := hanswer
      obtain ⟨rc, hserve, hvalue⟩ := hserved hnone
      rw [List.getLast?_eq_getElem?] at hcall hserve
      rw [hlength] at hserve
      exact ⟨fd, buf, size, rc, hcall, hserve, hvalue⟩

theorem calls_step (hstep : s.step l = some s') (hcall : ∀ c, l ≠ .call c) :
    s'.calls = s.calls := by
  cases steps_of_step hstep with
  | call => exact absurd rfl (hcall _)
  | _ => rfl

theorem created_step (hstep : s.step l = some s') {t : Nat} (h : t ∈ s.created) :
    t ∈ s'.created := by
  cases steps_of_step hstep with
  | mainCreate | create => exact List.mem_append_left _ h
  | _ => exact h

theorem returns_step (hstep : s.step l = some s') : s'.returns = s.returns ∨
    ∃ e t c point, s.cexecPc = .result e t point ∧ s.cexecCurrentRunningTask = some c ∧
      s'.returns = s.returns ++ s.returned t (s.record c) point := by
  cases steps_of_step hstep with
  | result hpc hcur => exact Or.inr ⟨_, _, _, _, hpc, hcur, rfl⟩
  | _ => exact Or.inl rfl

theorem Got.mono {t k : Nat} {r : Request} (h : Got s t k r)
    (hsub : ∀ x ∈ s.returns, x ∈ s'.returns) : Got s' t k r := by
  cases r with
  | openFile fname =>
      obtain ⟨value, hmem⟩ := h
      exact ⟨value, hsub _ hmem⟩
  | readFile fd buf size =>
      obtain ⟨value, hmem⟩ := h
      exact ⟨value, hsub _ hmem⟩
  | writeFile | closeFile => trivial

/-- The last call of a task has returned when the task has read its result. -/
theorem got_result {e t c : Nat} {point : Point} {k : Nat} {r : Request}
    (hpc : s.cexecPc = .result e t point) (hlast : k + 1 = (s.callsOf t).length)
    (hpoint : r.resultPoint = some (s.point t))
    (hreturns : s'.returns = s.returns ++ s.returned t (s.record c) point) : Got s' t k r := by
  have hk : k = (s.callsOf t).length - 1 := by omega
  have hat : s.point t = point := by
    rw [State.point, hpc, CexecPc.pointOf, if_pos rfl]
    rfl
  rw [hat] at hpoint
  cases r with
  | openFile fname =>
      obtain rfl := Option.some.inj hpoint
      refine ⟨(s.record c).ioOperationData.openFile.returnVal, ?_⟩
      rw [hreturns, hk]
      exact List.mem_append_right _ (List.mem_singleton_self _)
  | readFile fd buf size =>
      obtain rfl := Option.some.inj hpoint
      refine ⟨(s.record c).ioOperationData.readFile.returnVal, ?_⟩
      rw [hreturns, hk]
      exact List.mem_append_right _ (List.mem_singleton_self _)
  | writeFile | closeFile => cases hpoint

theorem resultPoint_ne {r : Request} :
    r.resultPoint ≠ some .entry ∧ r.resultPoint ≠ some .returned := by
  cases r <;> exact ⟨nofun, nofun⟩

/-- A call is the last of its task, and the earlier ones have returned. -/
theorem call_returned (hc : Core s) (h : Returned s) {e t : Nat} {c : Call}
    (hpc : s.cexecPc = .run e t) (hstep : s.step (.call c) = some { s with
      calls := s.calls ++ (c.request.map fun r => (t, r)).toList
      cexecPc := .call e t c.body }) :
    Returned { s with
      calls := s.calls ++ (c.request.map fun r => (t, r)).toList
      cexecPc := .call e t c.body } := by
  have hmem : t ∈ s.created := hc.held_created (hc.running t (by rw [hpc]; rfl))
  have hother : ∀ i, t ≠ i →
      Journal.of (s.calls ++ (c.request.map fun r => (t, r)).toList) i = s.callsOf i := by
    intro i hi
    cases c with
    | yield | exit => exact congrArg (Journal.of · i) (List.append_nil s.calls)
    | io r => exact Journal.of_append_ne s.calls r hi
  refine ⟨fun r hr => (h.right r hr).step hstep, fun i hi k r hk => ?_, fun i hi => ?_⟩
  · by_cases hti : t = i
    · subst hti
      have hpoint : s.point t = .returned := by
        rw [State.point, hpc, CexecPc.pointOf, if_pos rfl]
        rfl
      have hold : (s.callsOf t)[k]? = some r → Got s t k r := by
        intro hold
        rcases h.got t hi k r hold with hgot | ⟨-, hpt⟩
        · exact hgot
        · exact absurd (hpoint ▸ hpt) resultPoint_ne.2
      have hk : (Journal.of (s.calls ++ (c.request.map fun r => (t, r)).toList) t)[k]? =
          some r := hk
      cases c with
      | yield | exit =>
          refine Or.inl ((hold ?_).mono fun _ hx => hx)
          rw [← hk]
          exact congrArg (fun l => (Journal.of l t)[k]?) (List.append_nil s.calls).symm
      | io req =>
          have hself : Journal.of (s.calls ++ [(t, req)]) t = s.callsOf t ++ [req] :=
            Journal.of_append_self s.calls t req
          have hk : (Journal.of (s.calls ++ [(t, req)]) t)[k]? = some r := hk
          rw [hself] at hk
          by_cases hlt : k < (s.callsOf t).length
          · rw [List.getElem?_append_left hlt] at hk
            exact Or.inl ((hold hk).mono fun _ hx => hx)
          · have hend : k = (s.callsOf t).length := by
              have := (List.getElem?_eq_some_iff.mp hk).1
              rw [List.length_append, List.length_singleton] at this
              omega
            rw [hend, List.getElem?_concat_length] at hk
            obtain rfl := Option.some.inj hk
            have hlast : k + 1 = (Journal.of (s.calls ++ [(t, req)]) t).length := by
              rw [hself, List.length_append, List.length_singleton, hend]
            cases req with
            | writeFile | closeFile => exact Or.inl trivial
            | openFile | readFile =>
                refine Or.inr ⟨hlast, ?_⟩
                rw [State.point, CexecPc.pointOf, if_pos rfl]
                rfl
    · have hk : (Journal.of (s.calls ++ (c.request.map fun r => (t, r)).toList) i)[k]? =
          some r := hk
      rw [hother i hti] at hk
      rcases h.got i hi k r hk with hgot | ⟨hlast, hpt⟩
      · exact Or.inl (hgot.mono fun _ hx => hx)
      · refine Or.inr ⟨hlast.trans (congrArg List.length (hother i hti).symm), hpt.trans ?_⟩
        rw [State.point, State.point, hpc, CexecPc.pointOf, if_neg hti, CexecPc.pointOf,
          if_neg hti]
  · exact (hother i fun heq => hi (heq ▸ hmem)).trans (h.uncalled i hi)

theorem step_returned (hc : Core s) (ht : Typed s) (hlog : Logged Request.exceptClose s)
    (ha : Answered s) (h : Returned s) (hstep : s.step l = some s') : Returned s' := by
  have hquiet : (∀ c, l ≠ .call c) → Returned s' := by
    intro hcall
    have hcalls : ∀ i, s'.callsOf i = s.callsOf i := fun i =>
      congrArg (Journal.of · i) (calls_step hstep hcall)
    have hreturns := returns_step hstep
    have hsub : ∀ x ∈ s.returns, x ∈ s'.returns := by
      intro x hx
      rcases hreturns with heq | ⟨e, t, c, point, -, -, heq⟩ <;> rw [heq]
      · exact hx
      · exact List.mem_append_left _ hx
    refine ⟨fun r hr => ?_, fun i hi' k r hk => ?_, fun i hi => ?_⟩
    · rcases hreturns with heq | ⟨e, t, c, point, hpc, hcur, heq⟩ <;> rw [heq] at hr
      · exact (h.right r hr).step hstep
      · rcases List.mem_append.mp hr with hr | hr
        · exact (h.right r hr).step hstep
        · exact (returned_right hc ht hlog ha hpc hcur r hr).step hstep
    · rw [hcalls] at hk ⊢
      by_cases hi : i ∈ s.created
      · rcases h.got i hi k r hk with hgot | ⟨hlast, hpt⟩
        · exact Or.inl (hgot.mono hsub)
        · rcases point_step hc hstep hcall hi with hsame | ⟨-, hentry | ⟨e, c, point, hpc, hret⟩⟩
          · exact Or.inr ⟨hlast, hsame ▸ hpt⟩
          · exact absurd (hentry ▸ hpt) resultPoint_ne.1
          · exact Or.inl (got_result hpc hlast hpt hret)
      · rw [h.uncalled i hi] at hk
        cases hk
    · rw [hcalls]
      exact h.uncalled i fun hmem => hi (created_step hstep hmem)
  cases steps_of_step hstep with
  | call hpc => exact call_returned hc h hpc hstep
  | _ => exact hquiet nofun

/-- The results a task got are right, and when its code runs all its calls that have
a result have returned it. -/
structure Results (s : State) : Prop where
  right : ∀ r ∈ s.returns, Right s r
  got : ∀ e t, s.cexecPc = .run e t → ∀ k r, (s.callsOf t)[k]? = some r → Got s t k r

/-- In the runs where an `open` that fails finds its result in the record already,
every call gets the result of its own system call. -/
theorem results_right (h : (system.guard OpenKept).Reachable s) : Results s := by
  obtain ⟨⟨hc, ht⟩, ⟨-, hlog⟩, ha, hret⟩ : (Core s ∧ Typed s) ∧
      (Fifo s ∧ Logged Request.exceptClose s) ∧ Answered s ∧ Returned s :=
    System.Reachable.invariant (S := system.guard OpenKept)
      (I := fun s => (Core s ∧ Typed s) ∧ (Fifo s ∧ Logged Request.exceptClose s) ∧
        Answered s ∧ Returned s)
      (fun _ hs => hs ▸ ⟨⟨Core.start, Typed.start⟩, ⟨Fifo.start, Logged.start⟩,
        Answered.start, Returned.start⟩)
      (fun _ _ _ ⟨⟨hc, ht⟩, ⟨hfifo, hlog⟩, ha, hret⟩ hs =>
        ⟨⟨step_core hc hs.2, step_typed hc ht hs.2⟩,
          ⟨step_fifo hc ht hfifo hs.2, step_logged hc ht hlog (fun _ _ _ _ _ => rfl) hs.2⟩,
          step_answered hc ht hlog ha hs.1 hs.2, step_returned hc ht hlog ha hret hs.2⟩) h
  refine ⟨hret.right, ?_⟩
  intro e t hpc k r hk
  have hmem : t ∈ s.created := hc.held_created (hc.running t (by rw [hpc]; rfl))
  rcases hret.got t hmem k r hk with hgot | ⟨-, hpt⟩
  · exact hgot
  · rw [State.point, hpc, CexecPc.pointOf, if_pos rfl] at hpt
    exact absurd hpt resultPoint_ne.2

/-- A task opens a file and reads from it; the `read` fails. -/
theorem results_right_read :
    ∃ s, System.play (System.checked State.step OpenKept)
        (firstTask ⟨⟨0, 0⟩, ⟨0, 0, 0, 0⟩, ⟨0, 0, 0⟩, ⟨0⟩⟩ ++
          callSteps (.io (.openFile 100)) 2 ++ serveSteps 3 ++ List.replicate 5 .cexec ++
          callSteps (.io (.readFile 3 200 64)) 4 ++ serveSteps (-1) ++
          List.replicate 5 .cexec) start = some s ∧
      s.cexecPc = .run 2 2 ∧ s.returns = [.openFile 2 0 3, .readFile 2 1 0] ∧ Results s := by
  have hplay : ∃ s, System.play (System.checked State.step OpenKept)
        (firstTask ⟨⟨0, 0⟩, ⟨0, 0, 0, 0⟩, ⟨0, 0, 0⟩, ⟨0⟩⟩ ++
          callSteps (.io (.openFile 100)) 2 ++ serveSteps 3 ++ List.replicate 5 .cexec ++
          callSteps (.io (.readFile 3 200 64)) 4 ++ serveSteps (-1) ++
          List.replicate 5 .cexec) start = some s ∧
      s.cexecPc = .run 2 2 ∧ s.returns = [.openFile 2 0 3, .readFile 2 1 0] := ⟨_, rfl, rfl, rfl⟩
  obtain ⟨s, hs, hpc, hreturns⟩ := hplay
  exact ⟨s, hs, hpc, hreturns, results_right (System.Reachable.play
    (System.guard_of_checked (S := system) fun _ _ _ h => h) (.start rfl) hs)⟩

/-- A task opens a file and then another that cannot be opened: both calls return
the descriptor of the first. -/
theorem failed_open_returns_old :
    ∃ s, System.play State.step
        (firstTask ⟨⟨0, 0⟩, ⟨0, 0, 0, 0⟩, ⟨0, 0, 0⟩, ⟨0⟩⟩ ++
          callSteps (.io (.openFile 100)) 2 ++ serveSteps 3 ++ List.replicate 5 .cexec ++
          callSteps (.io (.openFile 108)) 2 ++ serveSteps (-1) ++
          List.replicate 5 .cexec) start = some s ∧
      system.Reachable s ∧ s.servedOf 2 = [(.openFile 100, 3), (.openFile 108, -1)] ∧
      s.returns = [.openFile 2 0 3, .openFile 2 1 3] ∧ ¬ Results s := by
  have hplay : ∃ s, System.play State.step
        (firstTask ⟨⟨0, 0⟩, ⟨0, 0, 0, 0⟩, ⟨0, 0, 0⟩, ⟨0⟩⟩ ++
          callSteps (.io (.openFile 100)) 2 ++ serveSteps 3 ++ List.replicate 5 .cexec ++
          callSteps (.io (.openFile 108)) 2 ++ serveSteps (-1) ++
          List.replicate 5 .cexec) start = some s ∧
      s.servedOf 2 = [(.openFile 100, 3), (.openFile 108, -1)] ∧
      s.returns = [.openFile 2 0 3, .openFile 2 1 3] := ⟨_, rfl, rfl, rfl⟩
  obtain ⟨s, hs, hserved, hreturns⟩ := hplay
  refine ⟨s, hs, System.Reachable.play (fun _ _ _ h => h) (.start rfl) hs, hserved, hreturns,
    ?_⟩
  intro h
  obtain ⟨fname, -, hserve⟩ := h.right (.openFile 2 1 3) (by rw [hreturns]; decide)
  rw [hserved] at hserve
  simp at hserve

end OsConcepts.Sut
