import OsConcepts.Proofs.Progress
import OsConcepts.Proofs.Shutdown

/-!
# Shutting down comes to an end

In the fair runs whose exits are on fresh snapshots every task that goes on runs
again. So if every task makes finitely many calls and finitely many tasks are
created, all of them exit; then the queues are empty, both executors clear the
global of their current task and never set it again, and each next exit test is
passed.
-/

namespace OsConcepts.Sut

open OsConcepts

variable {s s' : State} {l : Label} {t : Nat}

/-! ## The invariant of these runs -/

/-- What an executor has read of its own global on its way out still holds. -/
structure Leaving (s : State) : Prop where
  cexec : (∃ n, s.cexecPc = .test .iexec n) ∨ s.cexecPc = .exit →
    s.cexecCurrentRunningTask = none
  iexec : s.iexecPc = .exit → s.iexecCurrentRunningTask = none

theorem Leaving.start : Leaving start where
  cexec h := by rcases h with ⟨n, h⟩ | h <;> cases h
  iexec h := by cases h

theorem Window.join (h : Window s) (hc : Core s)
    (hpc : (∃ n, s.cexecPc = .test .iexec n) ∨ s.cexecPc = .exit ∨ s.iexecPc = .exit) :
    s.mainPc = .join := by
  rcases hpc with ⟨n, hpc⟩ | hpc
  · exact hc.shutdown ((h.cexec _ n hpc).isShutdown nofun)
  · exact hc.shutdown (h.quiet hpc).isShutdown

theorem step_leaving (hc : Core s) (hw : Window s) (h : Leaving s) (hstep : s.step l = some s') :
    Leaving s' := by
  cases steps_of_step hstep with
  | initCexec hmain =>
      refine ⟨fun hpc => ?_, h.iexec⟩
      cases hmain.symm.trans (hw.join hc (hpc.imp_right Or.inl))
  | initIexec hmain =>
      refine ⟨h.cexec, fun hpc => ?_⟩
      cases hmain.symm.trans (hw.join hc (Or.inr (Or.inr hpc)))
  | peek | setCurrent | pop | assign | switch | result | active | finished | insertWait
  | insertReady | cexecClear | call =>
      exact ⟨fun hpc => (by rcases hpc with ⟨n, hpc⟩ | hpc <;> cases hpc), h.iexec⟩
  | swap =>
      refine ⟨fun hpc => ?_, h.iexec⟩
      dsimp only [State.resume] at hpc
      split at hpc <;> rcases hpc with ⟨n, hpc⟩ | hpc <;> cases hpc
  | cexecIdle hidle =>
      refine ⟨fun hpc => ?_, h.iexec⟩
      cases hidle with
      | cexecNull _ hnull => exact hnull
      | iexecNull hat => exact h.cexec (Or.inl ⟨_, hat⟩)
      | _ => rcases hpc with ⟨n, hpc⟩ | hpc <;> cases hpc
  | iexecPeek | iexecSetCurrent | iexecPop | serve | reset | iexecInsert | iexecClear =>
      exact ⟨h.cexec, nofun⟩
  | iexecIdle hidle =>
      refine ⟨h.cexec, fun hpc => ?_⟩
      cases hidle with
      | iexecNull _ hnull => exact hnull
      | _ => cases hpc
  | _ => exact ⟨h.cexec, h.iexec⟩

/-- The invariants of the runs whose exits are on fresh snapshots. -/
structure Fresh (s : State) : Prop where
  core : Core s
  awake : Awake s
  window : Window s
  leaving : Leaving s

theorem reachable_fresh (h : (system.guard SnapshotFresh).Reachable s) : Fresh s :=
  System.Reachable.invariant (S := system.guard SnapshotFresh) (I := Fresh)
    (fun _ hs => hs ▸ ⟨Core.start, Awake.start, Window.start, Leaving.start⟩)
    (fun _ _ _ ⟨hc, ha, hw, hl⟩ hs => ⟨step_core hc hs.2, step_awake hc ha hs.2,
      ⟨fun _ _ => cexec_seen_step hw hs.2, fun _ _ => iexec_seen_step hw hs.2,
        fun _ => free_step hc hw hs.2, quiet_of_exit hc hw hs.1 hs.2⟩,
      step_leaving hc hw hl hs.2⟩) h

/-! ## Every task exits -/

/-- Where all tasks have exited, none goes on. -/
theorem Quiet.not_stays (h : Quiet s) (hc : Core s) (t : Nat) : ¬ s.Stays t := by
  rintro ⟨hmem, hactive⟩
  have hrun : s.cexecPc.running ≠ some t := fun hrun => by
    cases h.cexec.symm.trans (hc.running t hrun)
  rw [State.after, CexecPc.rest_of_not_running hrun] at hactive
  cases hactive.symm.trans (h.allExited hc t hmem)

/-- With its `sut_exit` a task ends. -/
theorem exit_not_stays (hrun : s.Runs t) (hstep : s.step (.call .exit) = some s') :
    ¬ s'.Stays t := by
  obtain ⟨e, hpc⟩ := hrun
  rw [State.step, State.callStep, hpc] at hstep
  obtain rfl := Option.some.inj hstep
  rintro ⟨-, hactive⟩
  rw [State.after] at hactive
  simp only [CexecPc.rest, if_pos] at hactive
  cases hactive

/-- A task that has executed `sut_exit`, or executes it, does not come back. -/
theorem ended_step (hc : Core s) (hmem : t ∈ s.created) (h : ¬ s.Stays t)
    (hstep : s.step l = some s') : ¬ s'.Stays t := by
  by_cases hexit : s.Runs t ∧ l = .call .exit
  · exact exit_not_stays hexit.1 (hexit.2 ▸ hstep)
  · exact fun hstays => h ⟨hmem, (after_step hc hmem hstep hexit).symm.trans hstays.2⟩

/-- A task whose record is active goes on, unless one of its calls is under way. -/
theorem stays_of_active (hmem : t ∈ s.created) (hactive : (s.record t).isTaskActive = true)
    (hrest : s.cexecPc.rest t = []) : s.Stays t := by
  refine ⟨hmem, ?_⟩
  rw [State.after, hrest]
  exact hactive

theorem stays_of_resumed (h : Fresh s) (hresumed : s.cexecPc.resumed = some t) : s.Stays t := by
  refine stays_of_active (h.core.held_created (CexecPc.held_of_resumed hresumed))
    (h.awake t hresumed) ?_
  cases hpc : s.cexecPc <;> rw [hpc] at hresumed <;> first | rfl | cases hresumed

/-- `sut_shutdown` was called, and no task goes on. -/
structure Ended (s : State) : Prop where
  isShutdown : s.isShutdown = true
  ended : ∀ t, ¬ s.Stays t

theorem step_ended (hf : Fresh s) (h : Ended s) (hstep : s.step l = some s') : Ended s' := by
  refine ⟨shutdown_step hstep h.isShutdown, fun t => ?_⟩
  by_cases hmem : t ∈ s.created
  · exact ended_step hf.core hmem (h.ended t) hstep
  · -- Nobody is left to create a task.
    have hsame : s'.created = s.created := by
      cases steps_of_step hstep with
      | mainCreate hmain => cases hmain.symm.trans (hf.core.shutdown h.isShutdown)
      | @create e i junk hpc =>
          exact absurd (stays_of_resumed hf (by rw [hpc]; rfl)) (h.ended e)
      | _ => rfl
    intro hstays
    exact hmem (hsame ▸ hstays.1)

/-- With no task on its thread, nothing is left. -/
theorem Ended.quiet (hf : Fresh s) (h : Ended s) (hfree : s.cexecPc.held = none) : Quiet s := by
  have hc := hf.core
  have hdead : ∀ t, ¬ s.Live t := by
    intro t ⟨hmem, hactive⟩
    refine h.ended t (stays_of_active hmem hactive (CexecPc.rest_of_not_running fun hrun => ?_))
    cases hfree.symm.trans (hc.running t hrun)
  refine ⟨h.isShutdown, ?_, ?_, hfree, ?_⟩
  · exact List.eq_nil_iff_forall_not_mem.mpr fun t ht => hdead t (hc.live_of_ready ht)
  · exact List.eq_nil_iff_forall_not_mem.mpr fun t ht => hdead t (hc.live_of_wait ht)
  · cases hheld : s.iexecPc.held with
    | none => rfl
    | some e => exact absurd (hc.live_of_iexecHeld hheld) (hdead e)

section Runs

variable {r : (system.guard SnapshotFresh).Behavior}

theorem fresh (n : Nat) : Fresh (r.state n) := reachable_fresh (r.reachable n)

/-- No executor stops while a task goes on, so the task runs again. -/
theorem runs_again (hfair : FairRun r.ofGuard) {n : Nat} (h : (r.state n).Stays t) :
    ∃ m, n ≤ m ∧ (r.state m).Runs t := by
  obtain ⟨m, hle, hrun | hstopped⟩ := stays_runs hfair t n h
  · exact ⟨m, hle, hrun⟩
  · have hlast := System.Behavior.lasts_until (r := r) (P := fun s => s.Stays t)
      (E := fun k => (r.state k).Runs t) h hle fun k a _ hk hlabel => by
        by_cases hrun : (r.state k).Runs t
        · exact Or.inl hrun
        · exact Or.inr (stays_step (fresh k).core hk (r.step k a hlabel).2 fun hex => hrun hex.1)
    rcases hlast with hrun | hstays
    · exact hrun
    · exact absurd hstays (((fresh m).window.quiet hstopped).not_stays (fresh m).core t)

/-- A task that runs makes a call. -/
theorem runs_calls (hfair : FairRun r.ofGuard) {n : Nat} (h : (r.state n).Runs t) :
    ∃ m c, n ≤ m ∧ (r.state m).Runs t ∧ r.label m = some (.call c) := by
  obtain ⟨m, hle, htaken⟩ := hfair .task n
  have hlast := System.Behavior.lasts_until (r := r) (P := fun s => s.Runs t)
    (E := fun k => (r.state k).Runs t ∧ ∃ c, r.label k = some (.call c)) h hle
    fun k a _ hk hlabel => by
      obtain ⟨e, hpc⟩ := hk
      by_cases hcall : Turn.task.kind a
      · obtain ⟨c, rfl⟩ := hcall
        exact Or.inl ⟨⟨e, hpc⟩, c, hlabel⟩
      · exact Or.inr ⟨e, (cexecPc_kept (r.step k a hlabel).2 (by rw [hpc]; exact hcall)).trans hpc⟩
  rcases hlast with ⟨k, hk, hrun, c, hlabel⟩ | ⟨e, hpc⟩
  · exact ⟨k, c, hk, hrun, hlabel⟩
  · rcases htaken with ⟨a, hlabel, c, rfl⟩ | hunable
    · exact ⟨m, c, hle, ⟨e, hpc⟩, hlabel⟩
    · have hable := cexec_able (s := r.state m) (fresh m).core (by rw [hpc]; exact nofun)
      rw [hpc] at hable
      exact absurd hable hunable

/-- The last call on the compute executor's thread comes to its end. -/
theorem ended_quiet (hfair : FairRun r.ofGuard) : r.LeadsTo Ended Quiet := by
  refine System.Behavior.LeadsTo.trans_or (Q := fun s => Ended s ∧ s.cexecPc.held ≠ none)
    (.of_imp fun s hs h => ?_) ?_
  · by_cases hfree : s.cexecPc.held = none
    · exact Or.inr (h.quiet (reachable_fresh hs) hfree)
    · exact Or.inl ⟨h, hfree⟩
  refine System.Behavior.LeadsTo.of_rank (fun s => s.cexecPc.distance)
    (fun _ => Turn.cexec) hfair (fun s hs ⟨h, hheld⟩ => ?_) ?_
  · have hf := reachable_fresh hs
    have hable := cexec_able hf.core (by intro hpc; rw [hpc] at hheld; exact hheld rfl)
    cases hpc : s.cexecPc with
    | run e t => exact absurd (stays_of_resumed hf (by rw [hpc]; rfl)) (h.ended e)
    | _ =>
        rw [hpc] at hable
        exact hable
  intro s l s' hs ⟨h, hheld⟩ hstep
  have hf := reachable_fresh hs
  have hf' := reachable_fresh (hs.step hstep)
  have hstep : s.step l = some s' := hstep.2
  have hended := step_ended hf h hstep
  by_cases hl : l = .cexec
  · obtain rfl := hl
    cases steps_of_step hstep with
    | swap hpc | result hpc =>
        exact absurd (stays_of_resumed hf (by rw [hpc]; rfl)) (h.ended _)
    | @insertWait e hpc | @insertReady e hpc =>
        exact absurd (stays_of_active (hf.core.held_created (by rw [hpc]; rfl))
          (hf.core.inserting e hpc) (by rw [hpc]; rfl)) (h.ended e)
    | @active e c hpc hcur hactive =>
        obtain rfl := hf.core.current_unique (by rw [hpc]; rfl) hcur
        exact absurd (stays_of_active (hf.core.held_created (by rw [hpc]; rfl)) hactive
          (by rw [hpc]; rfl)) (h.ended e)
    | finished => exact Or.inl (hended.quiet hf' rfl)
    | @assign e i c a assigns point hpc | @switch e i c point hpc =>
        refine Or.inr ⟨⟨hended, nofun⟩, Or.inl ?_⟩
        dsimp only
        rw [hpc]
        exact Nat.lt_succ_self _
    | peek hpc | setCurrent hpc | pop hpc | cexecClear hpc =>
        rw [hpc] at hheld
        exact absurd rfl hheld
    | cexecIdle hidle => exact absurd hidle.held.1 hheld
  · have hsame : s'.cexecPc = s.cexecPc := by
      refine cexecPc_kept hstep ?_
      cases hpc : s.cexecPc with
      | run e t => exact absurd (stays_of_resumed hf (by rw [hpc]; rfl)) (h.ended e)
      | _ => exact hl
    exact Or.inr ⟨⟨hended, hsame ▸ hheld⟩, Or.inr ⟨congrArg CexecPc.distance hsame, rfl, hl⟩⟩

/-! ## Both executors exit -/

/-- What is left to do for an executor that has to clear its global: the way to its
next `.clear`. -/
def CexecPc.toClear : CexecPc → Nat
  | .peek => 4
  | .snapshot => 3
  | .test .isShutdown _ => 2
  | .test .cexec _ => 1
  | _ => 0

def IexecPc.toClear : IexecPc → Nat
  | .peek => 5
  | .snapshot => 4
  | .test .isShutdown _ => 3
  | .test .cexec _ => 2
  | .test .iexec _ => 1
  | _ => 0

/-- Quiet, and `cexecCurrentRunningTask` is `NULL`. -/
def HalfClear (s : State) : Prop := Quiet s ∧ s.cexecCurrentRunningTask = none

/-- Quiet, and no executor has a current task. -/
def Clear (s : State) : Prop := HalfClear s ∧ s.iexecCurrentRunningTask = none

/-- In a quiet state nobody but the executors moves, and no task is peeked at. -/
theorem Quiet.peeked (hc : Core s) (h : Quiet s) :
    s.cexecPc.peeked = none ∧ s.iexecPc.peeked = none := by
  constructor
  · cases hpeek : s.cexecPc.peeked with
    | none => rfl
    | some e => exact absurd (h.ready ▸ hc.cexecPeeked e hpeek) nofun
  · cases hpeek : s.iexecPc.peeked with
    | none => rfl
    | some e => exact absurd (h.wait ▸ hc.iexecPeeked e hpeek) nofun

theorem Quiet.turn (h : Quiet s) : s.cexecPc.turn = .cexec := by
  have hheld := h.cexec
  cases hpc : s.cexecPc with
  | run e t =>
      rw [hpc] at hheld
      cases hheld
  | _ => rfl

/-- A global that is `NULL` in a quiet state stays so. -/
theorem cexecCurrent_step (hc : Core s) (h : Quiet s) (hnull : s.cexecCurrentRunningTask = none)
    (hstep : s.step l = some s') : s'.cexecCurrentRunningTask = none := by
  cases steps_of_step hstep with
  | initCexec hmain => cases hmain.symm.trans (hc.shutdown h.isShutdown)
  | setCurrent hpc => exact absurd (hpc ▸ (h.peeked hc).1) nofun
  | cexecClear => rfl
  | _ => exact hnull

theorem iexecCurrent_step (hc : Core s) (h : Quiet s) (hnull : s.iexecCurrentRunningTask = none)
    (hstep : s.step l = some s') : s'.iexecCurrentRunningTask = none := by
  cases steps_of_step hstep with
  | initIexec hmain => cases hmain.symm.trans (hc.shutdown h.isShutdown)
  | iexecSetCurrent hpc => exact absurd (hpc ▸ (h.peeked hc).2) nofun
  | iexecClear => rfl
  | _ => exact hnull

theorem quiet_halfClear (hfair : FairRun r.ofGuard) : r.LeadsTo Quiet HalfClear := by
  refine System.Behavior.LeadsTo.trans_or
    (Q := fun s => Quiet s ∧ s.cexecCurrentRunningTask ≠ none) (.of_imp fun s _ h => ?_) ?_
  · by_cases hnull : s.cexecCurrentRunningTask = none
    · exact Or.inr ⟨h, hnull⟩
    · exact Or.inl ⟨h, hnull⟩
  refine System.Behavior.LeadsTo.of_rank (fun s => s.cexecPc.toClear)
    (fun _ => Turn.cexec) hfair (fun s hs ⟨h, hset⟩ => ?_) ?_
  · have hf := reachable_fresh hs
    have hable := cexec_able hf.core fun hpc => hset (hf.leaving.cexec (Or.inr hpc))
    rw [h.turn] at hable
    exact hable
  intro s l s' hs ⟨h, hset⟩ hstep
  have hf := reachable_fresh hs
  have hstep : s.step l = some s' := hstep.2
  have hquiet := step_quiet hf.core h hstep
  by_cases hnull : s'.cexecCurrentRunningTask = none
  · exact Or.inl ⟨hquiet, hnull⟩
  refine Or.inr ⟨⟨hquiet, hnull⟩, ?_⟩
  by_cases hl : l = .cexec
  · left
    obtain rfl := hl
    have hfree := h.cexec
    have hpeek := (h.peeked hf.core).1
    cases steps_of_step hstep with
    | peek hpc hhead => exact absurd (h.ready ▸ hhead) nofun
    | setCurrent hpc | pop hpc => exact absurd (hpc ▸ hpeek) nofun
    | swap hpc | assign hpc | switch hpc | result hpc | active hpc | finished hpc
    | insertWait hpc | insertReady hpc => exact absurd (hpc ▸ hfree) nofun
    | cexecClear => exact absurd rfl hnull
    | cexecIdle hidle =>
        cases hidle with
        | cexecNull _ hcur => exact absurd hcur hset
        | iexecNull hpc => exact absurd (hf.leaving.cexec (Or.inl ⟨_, hpc⟩)) hset
        | @failed f n hpc =>
            cases f with
            | iexec => exact absurd (hf.leaving.cexec (Or.inl ⟨n, hpc⟩)) hset
            | isShutdown | cexec =>
                dsimp only
                rw [hpc]
                exact Nat.zero_lt_succ _
        | empty hpc | bothEmpty hpc | notEmpty hpc | isShutdown hpc =>
            dsimp only
            rw [hpc]
            dsimp only [CexecPc.toClear]
            omega
  · have hsame := cexecPc_kept hstep (by rw [h.turn]; exact hl)
    exact Or.inr ⟨congrArg CexecPc.toClear hsame, rfl, hl⟩

theorem halfClear_clear (hfair : FairRun r.ofGuard) : r.LeadsTo HalfClear Clear := by
  refine System.Behavior.LeadsTo.trans_or
    (Q := fun s => HalfClear s ∧ s.iexecCurrentRunningTask ≠ none) (.of_imp fun s _ h => ?_) ?_
  · by_cases hnull : s.iexecCurrentRunningTask = none
    · exact Or.inr ⟨h, hnull⟩
    · exact Or.inl ⟨h, hnull⟩
  refine System.Behavior.LeadsTo.of_rank (fun s => s.iexecPc.toClear)
    (fun _ => Turn.iexec) hfair
    (fun s hs ⟨_, hset⟩ => iexec_able fun hpc => hset ((reachable_fresh hs).leaving.iexec hpc)) ?_
  intro s l s' hs ⟨⟨h, hcur⟩, hset⟩ hstep
  have hf := reachable_fresh hs
  have hstep : s.step l = some s' := hstep.2
  have hhalf : HalfClear s' :=
    ⟨step_quiet hf.core h hstep, cexecCurrent_step hf.core h hcur hstep⟩
  by_cases hnull : s'.iexecCurrentRunningTask = none
  · exact Or.inl ⟨hhalf, hnull⟩
  refine Or.inr ⟨⟨hhalf, hnull⟩, ?_⟩
  by_cases hl : Turn.iexec.kind l
  · left
    obtain ⟨rc, rfl⟩ := hl
    have hfree := h.iexec
    have hpeek := (h.peeked hf.core).2
    cases steps_of_step hstep with
    | iexecPeek hpc hhead => exact absurd (h.wait ▸ hhead) nofun
    | iexecSetCurrent hpc | iexecPop hpc => exact absurd (hpc ▸ hpeek) nofun
    | serve hpc | reset hpc | iexecInsert hpc => exact absurd (hpc ▸ hfree) nofun
    | iexecClear => exact absurd rfl hnull
    | iexecIdle hidle =>
        cases hidle with
        | iexecNull _ hread => exact absurd hread hset
        | @failed f n hpc =>
            dsimp only
            rw [hpc]
            cases f <;> exact Nat.zero_lt_succ _
        | empty hpc | bothEmpty hpc | notEmpty hpc | isShutdown hpc | cexecNull hpc =>
            dsimp only
            rw [hpc]
            dsimp only [IexecPc.toClear]
            omega
  · exact Or.inr ⟨congrArg IexecPc.toClear (iexecPc_kept hstep hl), rfl, hl⟩

/-- The way to `pthread_exit` when every test is passed. -/
def CexecPc.toExit : CexecPc → Nat
  | .clear => 5
  | .peek => 4
  | .snapshot => 3
  | .test .isShutdown _ => 2
  | .test .cexec _ => 1
  | _ => 0

def IexecPc.toExit : IexecPc → Nat
  | .clear => 5
  | .peek => 4
  | .snapshot => 3
  | .test .isShutdown _ => 2
  | .test .cexec _ => 1
  | _ => 0

theorem Clear.flag (h : Clear s) (f : Flag) : s.flag f = true := by
  obtain ⟨⟨hquiet, hcexec⟩, hiexec⟩ := h
  cases f with
  | isShutdown => exact hquiet.isShutdown
  | cexec => exact Option.isNone_iff_eq_none.mpr hcexec
  | iexec => exact Option.isNone_iff_eq_none.mpr hiexec

theorem Clear.queuesEmpty (h : Clear s) : s.queuesEmpty = true :=
  queuesEmpty_iff.mpr ⟨h.1.1.ready, h.1.1.wait⟩

theorem step_clear (hc : Core s) (h : Clear s) (hstep : s.step l = some s') : Clear s' :=
  ⟨⟨step_quiet hc h.1.1 hstep, cexecCurrent_step hc h.1.1 h.1.2 hstep⟩,
    iexecCurrent_step hc h.1.1 h.2 hstep⟩

theorem clear_cexec_step (hc : Core s) (h : Clear s) (hstep : s.step .cexec = some s') :
    s'.cexecPc = .exit ∨ s'.cexecPc.toExit < s.cexecPc.toExit := by
  have hfree := h.1.1.cexec
  have hpeek := (h.1.1.peeked hc).1
  rw [State.step, State.cexecStep] at hstep
  cases hpc : s.cexecPc with
  | peek =>
      rw [hpc, h.1.1.ready] at hstep
      obtain rfl := Option.some.inj hstep
      exact Or.inr (Nat.lt_succ_self 3)
  | snapshot =>
      rw [hpc, h.queuesEmpty] at hstep
      obtain rfl := Option.some.inj hstep
      exact Or.inr (Nat.lt_succ_self 2)
  | test f n =>
      rw [hpc] at hstep
      dsimp only at hstep
      rw [if_pos (h.flag f)] at hstep
      obtain rfl := Option.some.inj hstep
      cases f with
      | isShutdown => exact Or.inr (Nat.lt_succ_self 1)
      | cexec => exact Or.inr (Nat.lt_succ_self 0)
      | iexec => exact Or.inl rfl
  | clear =>
      rw [hpc] at hstep
      obtain rfl := Option.some.inj hstep
      exact Or.inr (Nat.lt_succ_self 4)
  | exit =>
      rw [hpc] at hstep
      cases hstep
  | setCurrent | pop =>
      rw [hpc] at hpeek
      cases hpeek
  | _ =>
      rw [hpc] at hfree
      cases hfree

theorem clear_iexec_step (hc : Core s) (h : Clear s) {rc : Int}
    (hstep : s.step (.iexec rc) = some s') :
    s'.iexecPc = .exit ∨ s'.iexecPc.toExit < s.iexecPc.toExit := by
  have hfree := h.1.1.iexec
  have hpeek := (h.1.1.peeked hc).2
  rw [State.step, State.iexecStep] at hstep
  cases hpc : s.iexecPc with
  | peek =>
      rw [hpc, h.1.1.wait] at hstep
      obtain rfl := Option.some.inj hstep
      exact Or.inr (Nat.lt_succ_self 3)
  | snapshot =>
      rw [hpc, h.queuesEmpty] at hstep
      obtain rfl := Option.some.inj hstep
      exact Or.inr (Nat.lt_succ_self 2)
  | test f n =>
      rw [hpc] at hstep
      dsimp only at hstep
      rw [if_pos (h.flag f)] at hstep
      obtain rfl := Option.some.inj hstep
      cases f with
      | isShutdown => exact Or.inr (Nat.lt_succ_self 1)
      | cexec => exact Or.inr (Nat.lt_succ_self 0)
      | iexec => exact Or.inl rfl
  | clear =>
      rw [hpc] at hstep
      obtain rfl := Option.some.inj hstep
      exact Or.inr (Nat.lt_succ_self 4)
  | exit =>
      rw [hpc] at hstep
      cases hstep
  | setCurrent | pop =>
      rw [hpc] at hpeek
      cases hpeek
  | _ =>
      rw [hpc] at hfree
      cases hfree

/-- An executor that has exited does nothing more. -/
theorem cexec_exit_step (hpc : s.cexecPc = .exit) (hstep : s.step l = some s') :
    s'.cexecPc = .exit := by
  by_cases hl : l = .cexec
  · rw [hl, State.step, State.cexecStep, hpc] at hstep
    cases hstep
  · exact (cexecPc_kept hstep (by rw [hpc]; exact hl)).trans hpc

theorem clear_cexec_exits (hfair : FairRun r.ofGuard) :
    r.LeadsTo Clear fun s => Clear s ∧ s.cexecPc = .exit := by
  refine System.Behavior.LeadsTo.trans_or (Q := fun s => Clear s ∧ s.cexecPc ≠ .exit)
    (.of_imp fun s _ h => ?_) ?_
  · by_cases hexit : s.cexecPc = .exit
    · exact Or.inr ⟨h, hexit⟩
    · exact Or.inl ⟨h, hexit⟩
  refine System.Behavior.LeadsTo.of_rank (fun s => s.cexecPc.toExit)
    (fun _ => Turn.cexec) hfair (fun s hs ⟨h, hpc⟩ => ?_) ?_
  · have hable := cexec_able (reachable_fresh hs).core hpc
    rw [h.1.1.turn] at hable
    exact hable
  intro s l s' hs ⟨h, hpc⟩ hstep
  have hc := (reachable_fresh hs).core
  have hstep : s.step l = some s' := hstep.2
  have hclear := step_clear hc h hstep
  by_cases hexit : s'.cexecPc = .exit
  · exact Or.inl ⟨hclear, hexit⟩
  refine Or.inr ⟨⟨hclear, hexit⟩, ?_⟩
  by_cases hl : l = .cexec
  · obtain rfl := hl
    exact Or.inl ((clear_cexec_step hc h hstep).resolve_left hexit)
  · exact Or.inr ⟨congrArg CexecPc.toExit (cexecPc_kept hstep (by rw [h.1.1.turn]; exact hl)),
      rfl, hl⟩

theorem cexec_iexec_exits (hfair : FairRun r.ofGuard) :
    r.LeadsTo (fun s => Clear s ∧ s.cexecPc = .exit)
      fun s => Clear s ∧ s.cexecPc = .exit ∧ s.iexecPc = .exit := by
  refine System.Behavior.LeadsTo.trans_or
    (Q := fun s => (Clear s ∧ s.cexecPc = .exit) ∧ s.iexecPc ≠ .exit)
    (.of_imp fun s _ h => ?_) ?_
  · by_cases hexit : s.iexecPc = .exit
    · exact Or.inr ⟨h.1, h.2, hexit⟩
    · exact Or.inl ⟨h, hexit⟩
  refine System.Behavior.LeadsTo.of_rank (fun s => s.iexecPc.toExit)
    (fun _ => Turn.iexec) hfair (fun s _ ⟨_, hpc⟩ => iexec_able hpc) ?_
  intro s l s' hs ⟨⟨h, hcexec⟩, hpc⟩ hstep
  have hc := (reachable_fresh hs).core
  have hstep : s.step l = some s' := hstep.2
  have hclear := step_clear hc h hstep
  have hcexec' := cexec_exit_step hcexec hstep
  by_cases hexit : s'.iexecPc = .exit
  · exact Or.inl ⟨hclear, hcexec', hexit⟩
  refine Or.inr ⟨⟨⟨hclear, hcexec'⟩, hexit⟩, ?_⟩
  by_cases hl : Turn.iexec.kind l
  · obtain ⟨rc, rfl⟩ := hl
    exact Or.inl ((clear_iexec_step hc h hstep).resolve_left hexit)
  · exact Or.inr ⟨congrArg IexecPc.toExit (iexecPc_kept hstep hl), rfl, hl⟩

/-- Once shut down with no task going on, both executors exit, and there it stays. -/
theorem ended_exits (hfair : FairRun r.ofGuard) {n : Nat} (h : Ended (r.state n)) :
    ∃ m, n ≤ m ∧ Quiet (r.state m) ∧ (r.state m).cexecPc = .exit ∧ (r.state m).iexecPc = .exit := by
  obtain ⟨m, hle, hclear, hcexec, hiexec⟩ := ((((ended_quiet hfair).trans
    (quiet_halfClear hfair)).trans (halfClear_clear hfair)).trans
      (clear_cexec_exits hfair)).trans (cexec_iexec_exits hfair) n h
  exact ⟨m, hle, hclear.1.1, hcexec, hiexec⟩

/-! ## The whole run -/

theorem ended_kept {n m : Nat} (hmem : t ∈ (r.state n).created) (h : ¬ (r.state n).Stays t)
    (hle : n ≤ m) : ¬ (r.state m).Stays t := by
  refine (System.Behavior.stable (r := r) (P := fun s : State => t ∈ s.created ∧ ¬ s.Stays t) ?_
    ⟨hmem, h⟩ hle).2
  exact fun s l s' hs ⟨hmem, hnot⟩ hstep => ⟨created_step hstep.2 hmem,
    ended_step (reachable_fresh hs).core hmem hnot hstep.2⟩

/-- A task that comes to make no call but `sut_exit` exits. -/
theorem eventually_ended (hfair : FairRun r.ofGuard) {n : Nat} (hmem : t ∈ (r.state n).created)
    (hcalls : ∀ m, n ≤ m → ∀ c, (r.state m).Runs t → r.label m = some (.call c) → c = .exit) :
    ∃ m, ∀ k, m ≤ k → ¬ (r.state k).Stays t := by
  by_cases hstays : (r.state n).Stays t
  · obtain ⟨i, hi, hrun⟩ := runs_again hfair hstays
    obtain ⟨j, c, hj, hrun, hlabel⟩ := runs_calls hfair hrun
    obtain rfl := hcalls j (Nat.le_trans hi hj) c hrun hlabel
    have hmem' : t ∈ (r.state j).created := System.Behavior.stable (r := r) (P := fun s : State => t ∈ s.created)
      (fun _ _ _ _ hmem hstep => created_step hstep.2 hmem) hmem (Nat.le_trans hi hj)
    have hcall := (r.step j _ hlabel).2
    exact ⟨j + 1, fun k hk => ended_kept (created_step hcall hmem') (exit_not_stays hrun hcall) hk⟩
  · exact ⟨n, fun k hk => ended_kept hmem hstays hk⟩

/-- `sut_shutdown` returns: in a fair run whose exits are on fresh snapshots, where
each task makes finitely many calls besides `sut_exit` and finitely many tasks are
created, both executors exit, and every task has executed `sut_exit`. -/
theorem shutdown_returns (hfair : FairRun r.ofGuard)
    (hcalls : ∀ t, ∃ n, ∀ m, n ≤ m → ∀ c, (r.state m).Runs t → r.label m = some (.call c) →
      c = .exit)
    (hcreated : ∃ n, ∀ m, n ≤ m → (r.state m).created = (r.state n).created)
    (hshutdown : ∃ n, (r.state n).isShutdown = true) :
    ∃ n, (r.state n).cexecPc = .exit ∧ (r.state n).iexecPc = .exit ∧
      ∀ t ∈ (r.state n).created, ((r.state n).record t).isTaskActive = false := by
  obtain ⟨n, hcreated⟩ := hcreated
  obtain ⟨k, hshutdown⟩ := hshutdown
  have hended : ∀ t ∈ (r.state n).created, ∃ m, ∀ k, m ≤ k → ¬ (r.state k).Stays t := by
    intro t ht
    obtain ⟨i, hi⟩ := hcalls t
    refine eventually_ended (n := max n i) hfair ?_ fun m hm =>
      hi m (Nat.le_trans (Nat.le_max_right n i) hm)
    rw [hcreated _ (Nat.le_max_left n i)]
    exact ht
  obtain ⟨m, hm⟩ := System.Behavior.eventually_forall (r.state n).created hended
  have hall : Ended (r.state (max m (max n k))) := by
    refine ⟨?_, fun t hstays => ?_⟩
    · exact System.Behavior.stable (r := r) (P := fun s : State => s.isShutdown = true)
        (fun _ _ _ _ h hstep => shutdown_step hstep.2 h) hshutdown
        (Nat.le_trans (Nat.le_max_right n k) (Nat.le_max_right m _))
    · have hle : n ≤ max m (max n k) := Nat.le_trans (Nat.le_max_left n k) (Nat.le_max_right m _)
      exact hm _ (Nat.le_max_left m _) t (hcreated _ hle ▸ hstays.1) hstays
  obtain ⟨j, -, hquiet, hcexec, hiexec⟩ := ended_exits hfair hall
  exact ⟨j, hcexec, hiexec, hquiet.allExited (fresh j).core⟩

end Runs

/-- A task opens a file and exits while the main thread waits in `sut_shutdown`. -/
theorem shutdown_returns_open :
    ∃ r : (system.guard SnapshotFresh).Behavior, FairRun r.ofGuard ∧
      (r.state 14).waitQueue = [2] ∧
      ∃ n, (r.state n).cexecPc = .exit ∧ (r.state n).iexecPc = .exit ∧
        ∀ t ∈ (r.state n).created, ((r.state n).record t).isTaskActive = false := by
  have hplay : ∃ s, System.play (System.checked State.step SnapshotFresh) openAndExit start = some s ∧
      s.cexecPc = .exit ∧ s.iexecPc = .exit ∧ s.isShutdown = true := ⟨_, rfl, rfl, rfl, rfl⟩
  obtain ⟨s, hs, hcexec, hiexec, hset⟩ := hplay
  let r := System.Behavior.ofPlay (system.guard SnapshotFresh)
    (System.checked State.step SnapshotFresh)
    (System.guard_of_checked (S := system) fun _ _ _ h => h) openAndExit start s rfl hs
  have hstill : ∀ m, openAndExit.length ≤ m → r.state m = s :=
    fun m hm => System.Behavior.visited_still hs hm
  have hfair : FairRun r.ofGuard := fun k =>
    (System.Behavior.ofPlay_fair (not_able_of_exit hcexec hiexec k) : r.Fair k.able k.kind)
  refine ⟨r, hfair, rfl, shutdown_returns hfair (fun t => ⟨openAndExit.length, ?_⟩)
    ⟨openAndExit.length, fun m hm => ?_⟩ ⟨openAndExit.length, ?_⟩⟩
  · intro m hm c _ hlabel
    cases (List.getElem?_eq_none hm).symm.trans hlabel
  · rw [hstill m hm, hstill _ (Nat.le_refl _)]
  · rw [hstill _ (Nat.le_refl _)]
    exact hset

/-! ## What both leave behind -/

def CexecPc.parting : CexecPc → Bool
  | .test _ _ | .exit => true
  | _ => false

def IexecPc.parting : IexecPc → Bool
  | .test _ _ | .exit => true
  | _ => false

/-- Whatever is left waits to run for the first time. -/
structure OnlyNew (s : State) : Prop where
  ready : ∀ t ∈ s.taskReadyQueue, (s.record t).context.point = .entry
  wait : s.waitQueue = []
  cexec : s.cexecPc.held = none
  iexec : s.iexecPc.held = none

/-- Of two executors on their way out the later one has found the queues empty while
neither had a task, and since then only the main thread can have created some. -/
def Parted (s : State) : Prop :=
  s.cexecPc.parting = true → s.iexecPc.parting = true → OnlyNew s

theorem CexecPc.held_of_parting {pc : CexecPc} (h : pc.parting = true) : pc.held = none := by
  cases pc <;> first | rfl | cases h

theorem IexecPc.held_of_parting {pc : IexecPc} (h : pc.parting = true) : pc.held = none := by
  cases pc <;> first | rfl | cases h

theorem Parted.start : Parted start := nofun

theorem step_parted (hc : Core s) (h : Parted s) (hstep : s.step l = some s') : Parted s' := by
  intro hcexec hiexec
  cases steps_of_step hstep with
  | mainCreate hmain =>
      have hnew := h hcexec hiexec
      refine { hnew with ready := fun t ht => ?_ }
      rcases List.mem_append.mp ht with ht | ht
      · have hne : t ≠ s.malloced := fun heq =>
          malloced_not_created hc (heq ▸ (hc.live_of_ready ht).1)
        exact (congrArg (fun e => e.context.point) (record_setRecord_ne s _ hne)).trans
          (hnew.ready t ht)
      · rw [List.mem_singleton.mp ht]
        exact congrArg (fun e => e.context.point) (record_setRecord_self s _ _)
  | cexecIdle hidle =>
      have hheld := IexecPc.held_of_parting hiexec
      cases hidle with
      | bothEmpty hpc hready hwait => exact ⟨hready ▸ nofun, hwait, rfl, hheld⟩
      | isShutdown hpc | cexecNull hpc | iexecNull hpc =>
          exact { h (by rw [hpc]; rfl) hiexec with cexec := rfl }
      | _ => cases hcexec
  | iexecIdle hidle =>
      have hheld := CexecPc.held_of_parting hcexec
      cases hidle with
      | bothEmpty hpc hready hwait => exact ⟨hready ▸ nofun, hwait, hheld, rfl⟩
      | isShutdown hpc | cexecNull hpc | iexecNull hpc =>
          exact { h hcexec (by rw [hpc]; rfl) with iexec := rfl }
      | _ => cases hiexec
  | create hpc => cases (congrArg CexecPc.parting hpc).symm.trans hcexec
  | swap =>
      dsimp only [State.resume] at hcexec
      split at hcexec <;> cases hcexec
  | call | peek | setCurrent | pop | assign | switch | result | active | finished | insertWait
  | insertReady | cexecClear => cases hcexec
  | iexecPeek | iexecSetCurrent | iexecPop | serve | reset | iexecInsert | iexecClear =>
      cases hiexec
  | initCexec | initIexec | shutdown => exact { h hcexec hiexec with }

/-- When `sut_shutdown` returns no task was left in the middle: each has executed
`sut_exit`, or is still in `taskReadyQueue` and has never been switched to. -/
theorem none_left_midway (h : system.Reachable s) (hcexec : s.cexecPc = .exit)
    (hiexec : s.iexecPc = .exit) : ∀ t ∈ s.created, (s.record t).isTaskActive = false ∨
      t ∈ s.taskReadyQueue ∧ (s.record t).context = ⟨t, .entry⟩ := by
  obtain ⟨hc, hparted⟩ : Core s ∧ Parted s :=
    System.Reachable.invariant (S := system) (I := fun s => Core s ∧ Parted s)
      (fun _ hs => hs ▸ ⟨Core.start, Parted.start⟩)
      (fun _ _ _ ⟨hc, hp⟩ hs => ⟨step_core hc hs, step_parted hc hp hs⟩) h
  have hnew := hparted (by rw [hcexec]; rfl) (by rw [hiexec]; rfl)
  intro t ht
  by_cases hactive : (s.record t).isTaskActive = true
  · have hcount := hc.places t
    rw [count_places, hnew.wait, cexecHeld_none hnew.cexec, iexecHeld_none hnew.iexec,
      if_pos ⟨ht, hactive⟩] at hcount
    have hready : t ∈ s.taskReadyQueue := by
      refine List.count_pos_iff.mp ?_
      simp only [List.count_nil] at hcount
      omega
    refine Or.inr ⟨hready, ?_⟩
    rw [← hnew.ready t hready]
    exact congrArg (Context.mk · _) (hc.context t ht)
  · exact Or.inl (Bool.eq_false_iff.mpr hactive)

/-- The main thread creates a task when both executors have found the queues empty,
and shuts down: both exit, and the task has never run. -/
theorem none_left_midway_new :
    ∃ s, System.play State.step ([.main, .main] ++ List.replicate 6 .cexec ++
        List.replicate 6 (.iexec 0) ++ [.mainCreate ⟨⟨0, 0⟩, ⟨0, 0, 0, 0⟩, ⟨0, 0, 0⟩, ⟨0⟩⟩, .shutdown] ++
        List.replicate 3 .cexec ++ List.replicate 3 (.iexec 0)) start = some s ∧
      s.created = [2] ∧ (s.record 2).isTaskActive = true ∧
      ∀ t ∈ s.created, (s.record t).isTaskActive = false ∨
        t ∈ s.taskReadyQueue ∧ (s.record t).context = ⟨t, .entry⟩ := by
  have hplay : ∃ s, System.play State.step ([.main, .main] ++ List.replicate 6 .cexec ++
        List.replicate 6 (.iexec 0) ++ [.mainCreate ⟨⟨0, 0⟩, ⟨0, 0, 0, 0⟩, ⟨0, 0, 0⟩, ⟨0⟩⟩, .shutdown] ++
        List.replicate 3 .cexec ++ List.replicate 3 (.iexec 0)) start = some s ∧
      s.created = [2] ∧ (s.record 2).isTaskActive = true ∧ s.cexecPc = .exit ∧ s.iexecPc = .exit :=
    ⟨_, rfl, rfl, rfl, rfl, rfl⟩
  obtain ⟨s, hs, hcreated, hactive, hcexec, hiexec⟩ := hplay
  exact ⟨s, hs, hcreated, hactive, none_left_midway
    (System.Reachable.play (fun _ _ _ h => h) (.start rfl) hs) hcexec hiexec⟩

end OsConcepts.Sut
