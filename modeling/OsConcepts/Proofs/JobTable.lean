import Mathlib.Data.Fintype.Basic
import OsConcepts.Shelly.Jobs

/-!
# The job table and the children

`Steps` says once what each event does to the shell. From it come an invariant
of every run (`Core`: the children have positive pids, each its own, and the
shell waits for what it says it waits for) and the soundness of the table in the
runs where `fg` is given a slot number.
-/

namespace OsConcepts.Shelly

open OsConcepts

variable {s s' : Shelly} {e : Event}

/-! ## What an event does -/

/-- The assignment, seen by slot. -/
theorem jobsQueue_setJob (s : Shelly) (n pid : Int) (i : Fin 5) :
    (s.setJob n pid).jobsQueue i = if (i : Nat) = n then pid else s.jobsQueue i := rfl

theorem firstJob_eq_some {p : Int → Bool} {i : Fin 5} (h : s.firstJob p = some i) :
    p (s.jobsQueue i) = true :=
  (Fin.find?_eq_some_iff.mp h).1

theorem firstJob_eq_none {p : Int → Bool} (h : s.firstJob p = none) (i : Fin 5) :
    p (s.jobsQueue i) = false :=
  Fin.find?_eq_none_iff.mp h i

/-- The events by their outcomes. -/
inductive Steps (s : Shelly) : Event → Shelly → Prop
  | builtin : s.pc = .prompt → Steps s .builtin s
  | exit : s.pc = .prompt → Steps s .exit s.exitShelly
  | quit : s.pc = .prompt → Steps s .quit { s with pc := .exited }
  | noJob {n : Int} : s.pc = .prompt → Steps s (.fg n) { s with fgPid := fgPidDefault }
  | fg {n : Int} : s.pc = .prompt → s.selectJob n ≠ fgPidDefault →
      Steps s (.fg n) { s with fgPid := s.selectJob n, pc := .waitFg n }
  | command {pid : Int} : s.pc = .prompt → s.Fresh pid → Steps s (.external false pid)
      { s with children := ⟨pid, false, true⟩ :: s.children, fgPid := pid, pc := .waitCommand }
  | added {pid : Int} {i : Fin 5} : s.pc = .prompt → s.Fresh pid → s.jobsQueue i = 0 →
      Steps s (.external true pid)
        ({ s with
          children := ⟨pid, true, true⟩ :: s.children
          fgPid := fgPidDefault }.setJob (i : Nat) pid)
  | refused {pid : Int} : s.pc = .prompt → s.Fresh pid → (∀ i, s.jobsQueue i ≠ 0) →
      Steps s (.external true pid)
        { s with children := ⟨pid, true, true⟩ :: s.children, fgPid := fgPidDefault }
  | killed {i : Fin 5} : s.pc ≠ .exited → s.jobsQueue i = s.fgPid → Steps s .sigint
      ({ s with signalled := s.jobsQueue i :: s.signalled }.setJob (i : Nat) 0)
  | ignored : Steps s .sigint s
  | finished {pid : Int} : Steps s (.terminate pid) (s.finish pid)
  | jobDone {n : Int} : s.pc = .waitFg n → Steps s .waitpid
      { (s.reap s.fgPid).setJob n 0 with fgPid := fgPidDefault, pc := .prompt }
  | commandDone : s.pc = .waitCommand → Steps s .waitpid
      { s.reap s.fgPid with fgPid := fgPidDefault, pc := .prompt }

theorem steps_of_step (h : s.step e = some s') : Steps s e s' := by
  cases e with
  | builtin | exit | quit =>
      simp only [step] at h
      split at h
      · next hpc =>
          cases h
          constructor
          exact hpc
      · cases h
  | fg n =>
      simp only [step] at h
      split at h
      · next hpc =>
          obtain rfl := Option.some.inj h
          unfold fgShelly
          dsimp only
          split
          · next hnone =>
              rw [hnone]
              exact .noJob hpc
          · next hjob => exact .fg hpc hjob
      · cases h
  | external bg pid =>
      simp only [step] at h
      split at h
      · next hok =>
          obtain rfl := Option.some.inj h
          obtain ⟨hpc, hfresh⟩ := hok
          unfold external
          cases bg with
          | false => exact .command hpc hfresh
          | true =>
              simp only [if_true, addNewJob]
              split
              · next i hi => exact .added hpc hfresh (by simpa using firstJob_eq_some hi)
              · next hnone =>
                  exact .refused hpc hfresh fun i => by simpa using firstJob_eq_none hnone i
      · cases h
  | sigint =>
      simp only [step] at h
      split at h
      · next hpc =>
          obtain rfl := Option.some.inj h
          unfold handleSigint
          split
          · split
            · next i hi => exact .killed hpc (by simpa using firstJob_eq_some hi)
            · exact .ignored
          · exact .ignored
      · cases h
  | terminate pid =>
      simp only [step] at h
      split at h
      · obtain rfl := Option.some.inj h
        exact .finished
      · cases h
  | waitpid =>
      simp only [step] at h
      split at h
      · next n hpc =>
          split at h
          · obtain rfl := Option.some.inj h
            exact .jobDone hpc
          · cases h
      · next hpc =>
          split at h
          · obtain rfl := Option.some.inj h
            exact .commandDone hpc
          · cases h
      · cases h

/-! ## In every run -/

/-- Children have positive pids, each its own; the table has no negative entry;
and the shell waits for the child it has in `fgPid`. While it waits for a job,
the slot of the argument, if it is one, has this job or nothing. -/
structure Core (s : Shelly) : Prop where
  pos : ∀ c ∈ s.children, 0 < c.pid
  single : ∀ c ∈ s.children, ∀ d ∈ s.children, c.pid = d.pid → c = d
  nonneg : ∀ i, 0 ≤ s.jobsQueue i
  prompt : s.pc = .prompt → s.fgPid = fgPidDefault
  command : s.pc = .waitCommand → ∃ c ∈ s.children, c.pid = s.fgPid ∧ c.background = false
  job : ∀ n, s.pc = .waitFg n → 0 < s.fgPid ∧
    ∀ i : Fin 5, (i : Nat) = n → s.jobsQueue i = s.fgPid ∨ s.jobsQueue i = 0

theorem selectJob_mem {n : Int} (h : s.selectJob n ≠ fgPidDefault) :
    s.selectJob n ≠ 0 ∧ (∃ i, s.jobsQueue i = s.selectJob n) ∧
      ∀ i : Fin 5, (i : Nat) = n → s.jobsQueue i = s.selectJob n := by
  unfold selectJob at h ⊢
  split
  · next hn =>
      rw [dif_pos hn] at h
      dsimp only at h ⊢
      split
      · next hjob =>
          refine ⟨hjob, ⟨_, rfl⟩, fun i hi => congrArg s.jobsQueue (Fin.ext ?_)⟩
          show i.val = n.toNat
          omega
      · next hjob => exact absurd (if_neg hjob) h
  · next hn =>
      rw [dif_neg hn] at h
      split
      · next i hi =>
          have hjob : s.jobsQueue i ≠ 0 := by simpa using firstJob_eq_some hi
          refine ⟨hjob, ⟨i, rfl⟩, ?_⟩
          intro j hj
          have := j.isLt
          omega
      · next hnone =>
          rw [hnone] at h
          exact absurd rfl h

/-- A new child is told from the others by its pid. -/
theorem Core.fork (h : Core s) {pid : Int} (hfresh : s.Fresh pid) (bg : Bool) :
    (∀ c ∈ (⟨pid, bg, true⟩ :: s.children : List Child), 0 < c.pid) ∧
    ∀ c ∈ (⟨pid, bg, true⟩ :: s.children : List Child),
      ∀ d ∈ (⟨pid, bg, true⟩ :: s.children : List Child), c.pid = d.pid → c = d := by
  refine ⟨fun c hc => ?_, fun c hc d hd heq => ?_⟩
  · rcases List.mem_cons.mp hc with rfl | hc
    · exact hfresh.1
    · exact h.pos c hc
  · rcases List.mem_cons.mp hc with rfl | hc <;> rcases List.mem_cons.mp hd with rfl | hd
    · rfl
    · exact absurd heq.symm (hfresh.2 d hd)
    · exact absurd heq (hfresh.2 c hc)
    · exact h.single c hc d hd heq

theorem step_core (h : Core s) (hstep : s.step e = some s') : Core s' := by
  cases steps_of_step hstep with
  | builtin | ignored => exact h
  | exit | quit =>
      exact ⟨h.pos, h.single, h.nonneg, fun hpc => (by cases hpc), fun hpc => (by cases hpc),
        fun _ hpc => (by cases hpc)⟩
  | noJob hpc =>
      refine ⟨h.pos, h.single, h.nonneg, fun _ => rfl, fun hc => ?_, fun n hn => ?_⟩
      · cases hpc.symm.trans hc
      · cases hpc.symm.trans hn
  | fg hpc hjob =>
      obtain ⟨hne, ⟨i, hi⟩, hslot⟩ := selectJob_mem hjob
      have hpos := h.nonneg i
      refine ⟨h.pos, h.single, h.nonneg, fun hc => (by cases hc), fun hc => (by cases hc),
        ?_⟩
      intro n hn
      obtain rfl := Pc.waitFg.inj hn
      exact ⟨show 0 < s.selectJob _ by omega, fun j hj => Or.inl (hslot j hj)⟩
  | command hpc hfresh =>
      obtain ⟨hpos, hsingle⟩ := h.fork hfresh false
      exact ⟨hpos, hsingle, h.nonneg, fun hc => (by cases hc),
        fun _ => ⟨_, List.mem_cons_self, rfl, rfl⟩, fun _ hn => (by cases hn)⟩
  | @added pid i hpc hfresh hfree =>
      obtain ⟨hpos, hsingle⟩ := h.fork hfresh true
      refine ⟨hpos, hsingle, fun j => ?_, fun _ => rfl, fun hc => ?_, fun n hn => ?_⟩
      · rw [jobsQueue_setJob]
        split
        · exact hfresh.1.le
        · exact h.nonneg j
      · cases hpc.symm.trans hc
      · cases hpc.symm.trans hn
  | refused hpc hfresh hfull =>
      obtain ⟨hpos, hsingle⟩ := h.fork hfresh true
      refine ⟨hpos, hsingle, h.nonneg, fun _ => rfl, fun hc => ?_, fun n hn => ?_⟩
      · cases hpc.symm.trans hc
      · cases hpc.symm.trans hn
  | @killed i hpc hi =>
      refine ⟨h.pos, h.single, fun j => ?_, h.prompt, h.command, fun n hn => ?_⟩
      · rw [jobsQueue_setJob]
        split
        · exact Int.le_refl 0
        · exact h.nonneg j
      · obtain ⟨hpos, hslot⟩ := h.job n hn
        refine ⟨hpos, ?_⟩
        intro j hj
        rw [jobsQueue_setJob]
        split
        · exact Or.inr rfl
        · exact hslot j hj
  | @finished pid =>
      have hmem : ∀ c ∈ (s.finish pid).children, ∃ d ∈ s.children, c.pid = d.pid ∧
          c.background = d.background ∧
          c = if d.pid = pid then { d with running := false } else d := by
        intro c hc
        obtain ⟨d, hd, rfl⟩ := List.mem_map.mp hc
        refine ⟨d, hd, ?_, ?_, rfl⟩ <;> split <;> rfl
      refine ⟨fun c hc => ?_, fun c hc d hd heq => ?_, h.nonneg, h.prompt, fun hcmd => ?_, h.job⟩
      · obtain ⟨d, hd, hpid, -⟩ := hmem c hc
        rw [hpid]
        exact h.pos d hd
      · obtain ⟨c', hc', hcp, -, hce⟩ := hmem c hc
        obtain ⟨d', hd', hdp, -, hde⟩ := hmem d hd
        rw [hce, hde, h.single c' hc' d' hd' (by rw [← hcp, ← hdp, heq])]
      · obtain ⟨c, hc, hpid, hbg⟩ := h.command hcmd
        refine ⟨_, List.mem_map_of_mem hc, ?_⟩
        split <;> exact ⟨hpid, hbg⟩
  | @jobDone n hpc =>
      refine ⟨fun c hc => h.pos c (List.mem_filter.mp hc).1, fun c hc d hd =>
        h.single c (List.mem_filter.mp hc).1 d (List.mem_filter.mp hd).1, fun j => ?_,
        fun _ => rfl, fun hc => (by cases hc), fun _ hn => (by cases hn)⟩
      show 0 ≤ if (j : Nat) = n then (0 : Int) else s.jobsQueue j
      split
      · exact Int.le_refl 0
      · exact h.nonneg j
  | commandDone hpc =>
      exact ⟨fun c hc => h.pos c (List.mem_filter.mp hc).1, fun c hc d hd =>
        h.single c (List.mem_filter.mp hc).1 d (List.mem_filter.mp hd).1, h.nonneg,
        fun _ => rfl, fun hc => (by cases hc), fun _ hn => (by cases hn)⟩

theorem start_core : Core start where
  pos _ hc := absurd hc List.not_mem_nil
  single _ hc := absurd hc List.not_mem_nil
  nonneg _ := Int.le_refl 0
  prompt _ := rfl
  command hc := by cases hc
  job _ hn := by cases hn

/-! ## With slot numbers for `fg` -/

/-- The condition on an event: `fg` is given the number of a slot, or there is
no job it could take. -/
def FgInRange (s : Shelly) : Event → Prop
  | .fg n => 0 ≤ n ∧ n < 5 ∨ ∀ i, s.jobsQueue i = 0
  | _ => True

/-- The job table in such runs: its entries are the pids of distinct unreaped
background children, and `fg` waits for the job in the slot of its argument. -/
structure Table (s : Shelly) : Prop where
  inRange : ∀ n ∈ s.writes, 0 ≤ n ∧ n < 5
  unreaped : ∀ i, s.jobsQueue i ≠ 0 →
    ∃ c ∈ s.children, c.pid = s.jobsQueue i ∧ c.background = true
  distinct : ∀ i j, s.jobsQueue i ≠ 0 → s.jobsQueue i = s.jobsQueue j → i = j
  slot : ∀ n, s.pc = .waitFg n → (0 ≤ n ∧ n < 5) ∧
    ∀ i : Fin 5, s.jobsQueue i = s.fgPid → (i : Nat) = n

theorem start_table : Table start where
  inRange _ hn := absurd hn List.not_mem_nil
  unreaped _ hi := absurd rfl hi
  distinct _ _ hi := absurd rfl hi
  slot _ hn := by cases hn

theorem slot_inRange (i : Fin 5) : (0 : Int) ≤ (i : Nat) ∧ ((i : Nat) : Int) < 5 := by
  have := i.isLt
  omega

/-- Clearing a slot leaves the other entries. -/
theorem jobsQueue_cleared {n : Int} {i : Fin 5} (h : (s.setJob n 0).jobsQueue i ≠ 0) :
    (i : Nat) ≠ n ∧ (s.setJob n 0).jobsQueue i = s.jobsQueue i := by
  rw [jobsQueue_setJob] at h ⊢
  split at h
  · exact absurd rfl h
  · next hne => exact ⟨hne, if_neg hne⟩

theorem step_table (hc : Core s) (h : Table s) (hok : FgInRange s e)
    (hstep : s.step e = some s') : Table s' := by
  cases steps_of_step hstep with
  | builtin | ignored => exact h
  | exit | quit => exact ⟨h.inRange, h.unreaped, h.distinct, fun _ hn => by cases hn⟩
  | noJob hpc => exact ⟨h.inRange, h.unreaped, h.distinct, fun _ hn => (by cases hpc.symm.trans hn)⟩
  | @fg n hpc hjob =>
      obtain ⟨hne, ⟨i, hi⟩, hslot⟩ := selectJob_mem hjob
      refine ⟨h.inRange, h.unreaped, h.distinct, ?_⟩
      intro m hm
      obtain rfl := Pc.waitFg.inj hm
      have hrange := hok.resolve_right fun hnone => hne (hi ▸ hnone i)
      refine ⟨hrange, ?_⟩
      intro j hj
      obtain ⟨k, hk⟩ : ∃ k : Fin 5, ((k : Nat) : Int) = n :=
        ⟨⟨n.toNat, by omega⟩, Int.toNat_of_nonneg hrange.1⟩
      have hj : s.jobsQueue j = s.selectJob n := hj
      have hjk := h.distinct j k (hj ▸ hne) (hj.trans (hslot k hk).symm)
      rw [hjk, hk]
  | @command pid hpc hfresh =>
      refine ⟨h.inRange, fun i hi => ?_, h.distinct, fun _ hn => by cases hn⟩
      obtain ⟨c, hmem, hcp⟩ := h.unreaped i hi
      exact ⟨c, List.mem_cons_of_mem _ hmem, hcp⟩
  | @added pid i hpc hfresh hfree =>
      have hnew : ∀ j, s.jobsQueue j ≠ pid := by
        intro j hj
        obtain ⟨c, hmem, hcp, -⟩ := h.unreaped j (by have := hfresh.1; omega)
        exact hfresh.2 c hmem (hcp.trans hj)
      have hval : ∀ j, (({ s with
          children := ⟨pid, true, true⟩ :: s.children
          fgPid := fgPidDefault } : Shelly).setJob (i : Nat) pid).jobsQueue j
            = if j = i then pid else s.jobsQueue j :=
        fun j => if_congr (by rw [Int.natCast_inj, Fin.ext_iff]) rfl rfl
      refine ⟨fun n hn => ?_, fun j hj => ?_, fun j k hj hjk => ?_,
        fun _ hn => (by cases hpc.symm.trans hn)⟩
      · rcases List.mem_cons.mp hn with rfl | hn
        · exact slot_inRange i
        · exact h.inRange n hn
      · rw [hval] at hj ⊢
        by_cases hji : j = i
        · rw [if_pos hji]
          exact ⟨_, List.mem_cons_self, rfl, rfl⟩
        · rw [if_neg hji] at hj ⊢
          obtain ⟨c, hmem, hcp⟩ := h.unreaped j hj
          exact ⟨c, List.mem_cons_of_mem _ hmem, hcp⟩
      · rw [hval] at hj
        rw [hval, hval] at hjk
        by_cases hji : j = i <;> by_cases hki : k = i
        · rw [hji, hki]
        · rw [if_pos hji, if_neg hki] at hjk
          exact absurd hjk.symm (hnew k)
        · rw [if_neg hji, if_pos hki] at hjk
          exact absurd hjk (hnew j)
        · rw [if_neg hji] at hj hjk
          rw [if_neg hki] at hjk
          exact h.distinct j k hj hjk
  | @refused pid hpc hfresh hfull =>
      refine ⟨h.inRange, fun i hi => ?_, h.distinct, fun _ hn => (by cases hpc.symm.trans hn)⟩
      obtain ⟨c, hmem, hcp⟩ := h.unreaped i hi
      exact ⟨c, List.mem_cons_of_mem _ hmem, hcp⟩
  | @killed i hpc hi =>
      refine ⟨fun n hn => ?_, fun j hj => ?_, fun j k hj hjk => ?_, fun n hn => ?_⟩
      · rcases List.mem_cons.mp hn with rfl | hn
        · exact slot_inRange i
        · exact h.inRange n hn
      · obtain ⟨-, heq⟩ := jobsQueue_cleared hj
        rw [heq] at hj ⊢
        exact h.unreaped j hj
      · obtain ⟨-, heq⟩ := jobsQueue_cleared hj
        obtain ⟨-, heq'⟩ := jobsQueue_cleared (hjk ▸ hj)
        rw [heq] at hj hjk
        rw [heq'] at hjk
        exact h.distinct j k hj hjk
      · obtain ⟨hrange, hslot⟩ := h.slot n hn
        have hpos := (hc.job n hn).1
        refine ⟨hrange, fun j hj => hslot j ?_⟩
        have hj' : (({ s with signalled := s.jobsQueue i :: s.signalled } : Shelly).setJob
          (i : Nat) 0).jobsQueue j = s.fgPid := hj
        obtain ⟨-, heq⟩ := jobsQueue_cleared (by rw [hj']; omega)
        exact heq.symm.trans hj'
  | @finished pid =>
      refine ⟨h.inRange, fun i hi => ?_, h.distinct, h.slot⟩
      obtain ⟨c, hmem, hpid, hbg⟩ := h.unreaped i hi
      refine ⟨_, List.mem_map_of_mem hmem, ?_⟩
      split <;> exact ⟨hpid, hbg⟩
  | @jobDone n hpc =>
      obtain ⟨hrange, hslot⟩ := h.slot n hpc
      have hkeep : ∀ j, ((s.reap s.fgPid).setJob n 0).jobsQueue j ≠ 0 →
          (j : Nat) ≠ n ∧ ((s.reap s.fgPid).setJob n 0).jobsQueue j = s.jobsQueue j :=
        fun j hj => jobsQueue_cleared hj
      refine ⟨fun m hm => ?_, fun j hj => ?_, fun j k hj hjk => ?_, fun _ hn => by cases hn⟩
      · rcases List.mem_cons.mp hm with rfl | hm
        · exact hrange
        · exact h.inRange m hm
      · obtain ⟨hne, heq⟩ := hkeep j hj
        have hj' : s.jobsQueue j ≠ 0 := heq ▸ hj
        obtain ⟨c, hmem, hpid, hbg⟩ := h.unreaped j hj'
        refine ⟨c, List.mem_filter.mpr ⟨hmem, ?_⟩, hpid.trans heq.symm, hbg⟩
        simpa using fun hcp => hne (hslot j (hpid.symm.trans hcp))
      · obtain ⟨-, heq⟩ := hkeep j hj
        obtain ⟨-, heq'⟩ := hkeep k fun hk => hj (hjk.trans hk)
        exact h.distinct j k (heq ▸ hj) (heq.symm.trans (hjk.trans heq'))
  | commandDone hpc =>
      refine ⟨h.inRange, fun i hi => ?_, h.distinct, fun _ hn => by cases hn⟩
      obtain ⟨c, hmem, hpid, hbg⟩ := h.unreaped i hi
      obtain ⟨d, hd, hdp, hdbg⟩ := hc.command hpc
      refine ⟨c, List.mem_filter.mpr ⟨hmem, ?_⟩, hpid, hbg⟩
      -- The command in the foreground is no background job.
      simp only [decide_eq_true_eq]
      intro hcp
      rw [hc.single c hmem d hd (hcp.trans hdp.symm), hdbg] at hbg
      cases hbg

/-! ## The soundness of the table -/

/-- Every assignment was to a slot; at a prompt the entries are the pids of
distinct background children not yet reaped; and when the `waitpid` of `fg`
returns, the slot of its job is cleared and no other changes. -/
structure Sound (s : Shelly) : Prop where
  inRange : ∀ n ∈ s.writes, 0 ≤ n ∧ n < 5
  unreaped : s.pc = .prompt → ∀ i, s.jobsQueue i ≠ 0 →
    ∃ c ∈ s.children, c.pid = s.jobsQueue i ∧ c.background = true
  distinct : s.pc = .prompt →
    ∀ i j, s.jobsQueue i ≠ 0 → s.jobsQueue i = s.jobsQueue j → i = j
  afterFg : ∀ n s', s.pc = .waitFg n → s.step .waitpid = some s' →
    ∀ i, s'.jobsQueue i = if s.jobsQueue i = s.fgPid then 0 else s.jobsQueue i

theorem Table.sound (h : Table s) (hc : Core s) : Sound s := by
  refine ⟨h.inRange, fun _ => h.unreaped, fun _ => h.distinct, ?_⟩
  intro n s' hpc hstep i
  cases steps_of_step hstep with
  | commandDone hcmd => cases hpc.symm.trans hcmd
  | @jobDone m hwait =>
      obtain rfl := Pc.waitFg.inj (hpc.symm.trans hwait)
      show (if (i : Nat) = n then (0 : Int) else s.jobsQueue i) = _
      by_cases hin : ((i : Nat) : Int) = n
      · rw [if_pos hin]
        -- The slot of the argument has the job, or a `SIGINT` has cleared it.
        rcases (hc.job n hpc).2 i hin with hjob | hzero
        · rw [if_pos hjob]
        · rw [hzero, ite_self]
      · rw [if_neg hin, if_neg fun hjob => hin ((h.slot n hpc).2 i hjob)]

/-- In the runs where every `fg` is given the number of a slot, or finds no job,
the table is sound in every state. -/
theorem jobTable_sound (h : (system.guard FgInRange).Reachable s) : Sound s := by
  have hinv : Core s ∧ Table s :=
    System.Reachable.invariant (S := system.guard FgInRange) (I := fun s => Core s ∧ Table s)
      (fun _ hs => hs ▸ ⟨start_core, start_table⟩)
      (fun _ _ _ hs hstep =>
        ⟨step_core hs.1 hstep.2, step_table hs.1 hs.2 hstep.1 hstep.2⟩) h
  exact hinv.2.sound hinv.1

/-- A job started and taken by its number. -/
theorem jobTable_sound_fg :
    Sound { (start.external true 1) with fgPid := 1, pc := .waitFg 0 } := by
  have hadded : (system.guard FgInRange).step start (.external true 1)
      (start.external true 1) := ⟨trivial, rfl⟩
  have hfg : (system.guard FgInRange).step (start.external true 1) (.fg 0)
      { (start.external true 1) with fgPid := 1, pc := .waitFg 0 } :=
    ⟨Or.inl (by decide), rfl⟩
  exact jobTable_sound ((System.Reachable.start rfl).step hadded |>.step hfg)

/-- `fg 7` takes the job of slot 0, and when it is done `jobsQueue[7]` is
assigned: slot 0 keeps the pid of a child that is no more. -/
theorem fg_leaves_slot :
    ∃ s, System.play step [.external true 1, .fg 7, .terminate 1, .waitpid] start = some s ∧
      system.Reachable s ∧ s.pc = .prompt ∧ s.writes = [7, 0] ∧ s.jobsQueue 0 = 1 ∧
      s.children = [] ∧ ¬ Sound s := by
  have hplay : ∃ s,
      System.play step [.external true 1, .fg 7, .terminate 1, .waitpid] start = some s ∧
      s.pc = .prompt ∧ s.writes = [7, 0] ∧ s.jobsQueue 0 = 1 ∧ s.children = [] :=
    ⟨_, rfl, rfl, rfl, rfl, rfl⟩
  obtain ⟨s, hs, hpc, hwrites, hslot, hnone⟩ := hplay
  refine ⟨s, hs, System.Reachable.play (fun _ _ _ h => h) (.start rfl) hs, hpc, hwrites, hslot,
    hnone, ?_⟩
  intro h
  have hmem : (7 : Int) ∈ s.writes := hwrites ▸ List.mem_cons_self
  exact absurd (h.inRange 7 hmem).2 (by decide)

end OsConcepts.Shelly
