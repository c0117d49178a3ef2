import OsConcepts.Proofs.JobTable

/-!
# Running jobs and the job table

`addNewJob` records a pid in a slot that is 0, and a slot becomes 0 only by `fg`
or by a `SIGINT` while `fg` waits: a job that has finished by itself keeps its
slot. So what decides whether a running background child is in the table is
whether there was a slot for it when it was started, and nothing later. The
reclaiming of slots is written down, as `removeFinishedJobs`, and never called;
the last part says what it would do.
-/

namespace OsConcepts.Shelly

open OsConcepts

variable {s s' : Shelly} {e : Event}

/-! ## What is recorded -/

/-- How many background children are running. -/
def runningJobs (s : Shelly) : Nat :=
  s.children.countP fun c => c.background = true ∧ c.running = true

/-- The steps after which at most `MAX_NUM_JOBS` background children run. -/
def few : System Shelly Event where
  init := system.init
  step s e s' := system.step s e s' ∧ s'.runningJobs ≤ 5

/-- At a prompt, every running background child has a slot. -/
def Recorded (s : Shelly) : Prop :=
  s.pc = .prompt → ∀ c ∈ s.children, c.background = true → c.running = true →
    ∃ i, s.jobsQueue i = c.pid

/-- The condition on an event: a background command is started when some slot is
0, or already has the pid (of an earlier job, after a `fg` out of range). -/
def Room (s : Shelly) : Event → Prop
  | .external true pid => ∃ i, s.jobsQueue i = 0 ∨ s.jobsQueue i = pid
  | _ => True

instance : ∀ e, Decidable (Room s e)
  | .external true pid => inferInstanceAs (Decidable (∃ i, s.jobsQueue i = 0 ∨ s.jobsQueue i = pid))
  | .external false _ | .builtin | .exit | .quit | .fg _ | .sigint | .terminate _ | .waitpid =>
      .isTrue trivial

/-- Where each running background child is: in a slot, or waited for by `fg`. -/
def Kept (s : Shelly) : Prop :=
  ∀ c ∈ s.children, c.background = true → c.running = true →
    (∃ i, s.jobsQueue i = c.pid) ∨ (∃ n, s.pc = .waitFg n) ∧ c.pid = s.fgPid

theorem Kept.recorded (h : Kept s) : Recorded s := by
  intro hpc c hc hbg hrun
  rcases h c hc hbg hrun with hslot | ⟨⟨n, hn⟩, -⟩
  · exact hslot
  · cases hpc.symm.trans hn

/-- At a prompt nothing is waited for. -/
theorem Kept.slot (h : Kept s) (hpc : s.pc = .prompt) {c : Child} (hc : c ∈ s.children)
    (hbg : c.background = true) (hrun : c.running = true) : ∃ i, s.jobsQueue i = c.pid :=
  h.recorded hpc c hc hbg hrun

theorem step_kept (hcore : Core s) (h : Kept s) (hroom : Room s e) (hstep : s.step e = some s') :
    Kept s' := by
  intro c hc hbg hrun
  cases steps_of_step hstep with
  | builtin | ignored => exact h c hc hbg hrun
  | exit hpc | quit hpc | noJob hpc | fg hpc => exact Or.inl (h.slot hpc hc hbg hrun)
  | command hpc =>
      rcases List.mem_cons.mp hc with rfl | hc
      · cases hbg
      · exact Or.inl (h.slot hpc hc hbg hrun)
  | @added pid i hpc hfresh hfree =>
      left
      rcases List.mem_cons.mp hc with rfl | hc
      · exact ⟨i, if_pos rfl⟩
      · obtain ⟨j, hj⟩ := h.slot hpc hc hbg hrun
        refine ⟨j, ?_⟩
        rw [jobsQueue_setJob, if_neg fun hij => ?_]
        · exact hj
        -- The slot was 0, and the child has a pid.
        · have hij : j = i := Fin.ext (Int.natCast_inj.mp hij)
          have := hcore.pos c hc
          rw [hij, hfree] at hj
          omega
  | @refused pid hpc hfresh hfull =>
      left
      rcases List.mem_cons.mp hc with rfl | hc
      · obtain ⟨i, hi | hi⟩ := hroom
        · exact absurd hi (hfull i)
        · exact ⟨i, hi⟩
      · exact h.slot hpc hc hbg hrun
  | @killed i hpc hi =>
      rcases h c hc hbg hrun with ⟨j, hj⟩ | hwait
      · by_cases hpid : c.pid = s.fgPid
        · refine Or.inr ⟨?_, hpid⟩
          cases hat : s.pc with
          | waitFg n => exact ⟨n, rfl⟩
          | exited => exact absurd hat hpc
          | prompt =>
              have hpos := hcore.pos c hc
              rw [hpid, hcore.prompt hat] at hpos
              exact absurd hpos (by decide)
          | waitCommand =>
              obtain ⟨d, hd, hdpid, hdbg⟩ := hcore.command hat
              rw [hcore.single c hc d hd (hpid.trans hdpid.symm), hdbg] at hbg
              cases hbg
        · refine Or.inl ⟨j, ?_⟩
          rw [jobsQueue_setJob, if_neg fun hij => ?_]
          · exact hj
          · have hij : j = i := Fin.ext (Int.natCast_inj.mp hij)
            exact hpid (hj.symm.trans (hij ▸ hi))
      · exact Or.inr hwait
  | @finished pid =>
      obtain ⟨d, hd, rfl⟩ := List.mem_map.mp hc
      by_cases hp : d.pid = pid
      · rw [if_pos hp] at hrun
        cases hrun
      · rw [if_neg hp] at hbg hrun ⊢
        exact h d hd hbg hrun
  | @jobDone n hpc =>
      obtain ⟨hc, hne⟩ := List.mem_filter.mp hc
      have hne : c.pid ≠ s.fgPid := by simpa using hne
      rcases h c hc hbg hrun with ⟨j, hj⟩ | ⟨-, hpid⟩
      · refine Or.inl ⟨j, ?_⟩
        show (if (j : Nat) = n then (0 : Int) else s.jobsQueue j) = c.pid
        rw [if_neg fun hjn => ?_]
        · exact hj
        · have := hcore.pos c hc
          rcases (hcore.job n hpc).2 j hjn with hjob | hzero <;> omega
      · exact absurd hpid hne
  | commandDone hpc =>
      obtain ⟨hc, -⟩ := List.mem_filter.mp hc
      rcases h c hc hbg hrun with hslot | ⟨⟨n, hn⟩, -⟩
      · exact Or.inl hslot
      · cases hpc.symm.trans hn

theorem start_kept : Kept start := fun _ hc => absurd hc List.not_mem_nil

/-- In the runs where every background command finds room, no running background
child is missing from the table at a prompt; and the first that finds none is. -/
theorem recorded_iff_room (h : (few.guard Room).Reachable s) :
    Recorded s ∧ ∀ e s', few.step s e s' → (Recorded s' ↔ Room s e) := by
  obtain ⟨hcore, hkept⟩ : Core s ∧ Kept s :=
    System.Reachable.invariant (S := few.guard Room) (I := fun s => Core s ∧ Kept s)
      (fun _ hs => hs ▸ ⟨start_core, start_kept⟩)
      (fun _ _ _ hs hstep =>
        ⟨step_core hs.1 hstep.2.1, step_kept hs.1 hs.2 hstep.1 hstep.2.1⟩) h
  refine ⟨hkept.recorded, fun e s' hstep => ⟨fun hrec => ?_, fun hroom =>
    (step_kept hcore hkept hroom hstep.1).recorded⟩⟩
  cases steps_of_step hstep.1 with
  | @added pid i hpc hfresh hfree => exact ⟨i, Or.inl hfree⟩
  | @refused pid hpc hfresh hfull =>
      obtain ⟨i, hi⟩ := hrec hpc ⟨pid, true, true⟩ List.mem_cons_self rfl rfl
      exact ⟨i, Or.inr hi⟩
  | _ => trivial

/-- The steps of `few`, computed. -/
def fewStep (s : Shelly) (e : Event) : Option Shelly :=
  (s.step e).filter fun s' => s'.runningJobs ≤ 5

theorem few_of_fewStep (h : fewStep s e = some s') : few.step s e s' := by
  obtain ⟨hstep, hfew⟩ := Option.filter_eq_some_iff.mp h
  exact ⟨hstep, of_decide_eq_true hfew⟩

/-- Those that meet the condition. -/
def roomStep (s : Shelly) (e : Event) : Option Shelly := if Room s e then fewStep s e else none

theorem room_of_roomStep (h : roomStep s e = some s') : (few.guard Room).step s e s' := by
  unfold roomStep at h
  split at h
  · next hroom => exact ⟨hroom, few_of_fewStep h⟩
  · cases h

/-- `fg` has taken the first of four jobs, the second has ended by itself and keeps
its slot: a fifth has room. -/
theorem recorded_fifth_job :
    ∃ s, System.play roomStep
        [.external true 1, .external true 2, .terminate 1, .fg 0, .waitpid, .terminate 2,
          .external true 3, .external true 4] start = some s ∧
      List.ofFn s.jobsQueue = [3, 2, 4, 0, 0] ∧ Recorded s ∧
      (Recorded (s.external true 5) ↔ Room s (.external true 5)) := by
  have hplay : ∃ s, System.play roomStep
        [.external true 1, .external true 2, .terminate 1, .fg 0, .waitpid, .terminate 2,
          .external true 3, .external true 4] start = some s ∧
      List.ofFn s.jobsQueue = [3, 2, 4, 0, 0] ∧ few.step s (.external true 5) (s.external true 5) :=
    ⟨_, rfl, by decide, rfl, by decide⟩
  obtain ⟨s, hs, hslots, hstep⟩ := hplay
  obtain ⟨hrec, hnext⟩ := recorded_iff_room
    (System.Reachable.play (fun _ _ _ => room_of_roomStep) (.start rfl) hs)
  exact ⟨s, hs, hslots, hrec, hnext _ _ hstep⟩

/-- What being recorded is for: `exit` sends `SIGTERM` to every child that is. -/
theorem exit_signals (hcore : Core s) (h : Recorded s) (hstep : s.step .exit = some s') :
    ∀ c ∈ s.children, c.background = true → c.running = true → c.pid ∈ s'.signalled := by
  intro c hc hbg hrun
  cases steps_of_step hstep with
  | exit hpc =>
      obtain ⟨i, hi⟩ := h hpc c hc hbg hrun
      have hpos := hcore.pos c hc
      refine List.mem_append_left _ (List.mem_reverse.mpr (List.mem_filter.mpr ⟨?_, ?_⟩))
      · exact List.mem_ofFn.mpr ⟨i, hi⟩
      · exact decide_eq_true (by omega)

/-- Five background jobs come and go, and the sixth, the only one running, is in
no slot: `exit` does not signal it. -/
theorem sixth_job_lost :
    ∃ s, System.play fewStep
        [.external true 1, .terminate 1, .external true 2, .terminate 2, .external true 3,
          .terminate 3, .external true 4, .terminate 4, .external true 5, .terminate 5,
          .external true 6] start = some s ∧
      few.Reachable s ∧ ¬ Recorded s ∧ 6 ∉ s.exitShelly.signalled := by
  have hplay : ∃ s, System.play fewStep
        [.external true 1, .terminate 1, .external true 2, .terminate 2, .external true 3,
          .terminate 3, .external true 4, .terminate 4, .external true 5, .terminate 5,
          .external true 6] start = some s ∧
      s.pc = .prompt ∧ ⟨6, true, true⟩ ∈ s.children ∧ (∀ i, s.jobsQueue i ≠ 6) ∧
      6 ∉ s.exitShelly.signalled :=
    ⟨_, rfl, rfl, List.mem_cons_self, by decide, by decide⟩
  obtain ⟨s, hs, hpc, hmem, hslot, hexit⟩ := hplay
  refine ⟨s, hs, System.Reachable.play (fun _ _ _ => few_of_fewStep) (.start rfl) hs, fun h => ?_,
    hexit⟩
  obtain ⟨i, hi⟩ := h hpc _ hmem rfl rfl
  exact hslot i hi

/-! ## What reclaiming would do -/

theorem removeFinishedJob_spec (s : Shelly) (i : Fin 5) :
    (∀ c, c.running = true → (c ∈ (s.removeFinishedJob i).children ↔ c ∈ s.children)) ∧
    (∀ j, (s.removeFinishedJob i).jobsQueue j = s.jobsQueue j ∨
      (s.removeFinishedJob i).jobsQueue j = 0) ∧
    ((s.removeFinishedJob i).jobsQueue i ≠ 0 →
      ∃ c ∈ s.children, c.running = true ∧ c.pid = s.jobsQueue i) := by
  unfold removeFinishedJob
  split
  · next hdone =>
      refine ⟨fun c hrun => ⟨fun hc => (List.mem_filter.mp hc).1, fun hc =>
        List.mem_filter.mpr ⟨hc, decide_eq_true fun hpid => ?_⟩⟩, fun j => ?_, fun hi => ?_⟩
      · rw [hdone.2 c hc hpid] at hrun
        cases hrun
      · rw [jobsQueue_setJob]
        split
        · exact Or.inr rfl
        · exact Or.inl rfl
      · rw [jobsQueue_setJob, if_pos rfl] at hi
        exact absurd rfl hi
  · next hkeep =>
      refine ⟨fun _ _ => Iff.rfl, fun _ => Or.inl rfl, ?_⟩
      intro hi
      have hwait : ¬ s.CanWait (s.jobsQueue i) := fun h => hkeep ⟨hi, h⟩
      simp only [CanWait, not_forall] at hwait
      obtain ⟨c, hc, hpid, hrun⟩ := hwait
      exact ⟨c, hc, by simpa using hrun, hpid⟩

theorem removeFinishedJobs_spec (l : List (Fin 5)) : ∀ s : Shelly,
    (∀ c, c.running = true → (c ∈ (l.foldl removeFinishedJob s).children ↔ c ∈ s.children)) ∧
    (∀ j, (l.foldl removeFinishedJob s).jobsQueue j = s.jobsQueue j ∨
      (l.foldl removeFinishedJob s).jobsQueue j = 0) ∧
    ∀ i ∈ l, (l.foldl removeFinishedJob s).jobsQueue i ≠ 0 →
      ∃ c ∈ s.children, c.running = true ∧ c.pid = s.jobsQueue i := by
  induction l with
  | nil => exact fun _ => ⟨fun _ _ => Iff.rfl, fun _ => Or.inl rfl, fun _ hi => by cases hi⟩
  | cons k l ih =>
      intro s
      obtain ⟨hchild₁, hslot₁, hrun₁⟩ := removeFinishedJob_spec s k
      obtain ⟨hchild, hslot, hrun⟩ := ih (s.removeFinishedJob k)
      rw [List.foldl_cons]
      refine ⟨fun c hr => (hchild c hr).trans (hchild₁ c hr), fun j => ?_, fun i hi hne => ?_⟩
      · rcases hslot j with h | h
        · rw [h]
          exact hslot₁ j
        · exact Or.inr h
      · have hk : (s.removeFinishedJob k).jobsQueue i ≠ 0 :=
          (hslot i).resolve_right hne ▸ hne
        rcases List.mem_cons.mp hi with rfl | hi
        · exact hrun₁ hk
        · obtain ⟨c, hc, hr, hpid⟩ := hrun i hi hne
          exact ⟨c, (hchild₁ c hr).mp hc, hr, hpid.trans ((hslot₁ i).resolve_right hk)⟩

/-- After `removeFinishedJobs` the table has only jobs that run: a pid would then
be refused only while five recorded jobs are running. -/
theorem removeFinishedJobs_running (i : Fin 5) (h : s.removeFinishedJobs.jobsQueue i ≠ 0) :
    ∃ c ∈ s.removeFinishedJobs.children, c.running = true ∧
      c.pid = s.removeFinishedJobs.jobsQueue i := by
  obtain ⟨hchild, hslot, hrun⟩ := removeFinishedJobs_spec (List.finRange 5) s
  obtain ⟨c, hc, hr, hpid⟩ := hrun i (List.mem_finRange i) h
  exact ⟨c, (hchild c hr).mpr hc, hr, hpid.trans ((hslot i).resolve_right h).symm⟩

end OsConcepts.Shelly
