import FastGraph.Net.Timers
import Mathlib.Data.List.MinMax

/-!
# Timers fire once they are due

As the delays are positive and the clock does not go back, a timer that a callback adds is not due
in the same call of `fire_timers`. So the call fires the timers that were due, in their order, and
ends. The server has one timer for each of its two jobs, at all times.
-/

namespace FastGraph.Timers

section
variable {κ : Type} {body : κ → List (Int × κ)} {now : Int} {s s' : Timers κ} {t : Timer κ}

/-- The timers that are added, none of them due. -/
theorem Adds.queue {more : List (Int × κ)} (adds : Adds s more s')
    (positive : ∀ p ∈ more, 0 < p.1) (past : now ≤ s.clock) :
    s.clock ≤ s'.clock ∧ ∃ added, s'.queue = added ++ s.queue ∧ ∀ t ∈ added, now < t.due := by
  induction adds with
  | nil => exact ⟨le_rfl, [], rfl, by simp⟩
  | @cons s s' reading delayMs cb more later _ ih =>
    have notYet : now < reading + delayMs * ms := by
      have := positive (delayMs, cb) List.mem_cons_self
      unfold ms
      dsimp only at this
      omega
    obtain ⟨clock, added, same, undue⟩ := ih (fun p mem => positive p (List.mem_cons_of_mem _ mem))
      (past.trans later)
    refine ⟨later.trans clock, added ++ [⟨reading + delayMs * ms, cb⟩], ?_, ?_⟩
    · rw [same]
      simp [addTimer]
    · intro u mem
      rcases List.mem_append.mp mem with mem | mem
      · exact undue u mem
      · rw [List.mem_singleton.mp mem]
        exact notYet

theorem due_append (l l' : List (Timer κ)) : due now (l ++ l') = due now l ++ due now l' :=
  List.filter_append ..

theorem due_eq_nil {l : List (Timer κ)} (undue : ∀ t ∈ l, now < t.due) : due now l = [] := by
  rw [due, List.filter_eq_nil_iff]
  intro t mem
  simpa using undue t mem

/-- One turn takes one of the timers that are due, one that is due first. -/
theorem Fire.due_perm (fire : Fire body now s t s') (positive : ∀ cb, ∀ p ∈ body cb, 0 < p.1)
    (past : now ≤ s.clock) :
    s.clock ≤ s'.clock ∧ (due now s.queue).Perm (t :: due now s'.queue) ∧
      ∀ u ∈ due now s'.queue, t.due ≤ u.due := by
  cases fire with
  | @fire _ _ rest perm first isDue added =>
  obtain ⟨clock, new, same, undue⟩ := added.queue (positive t.cb) past
  have left : due now s'.queue = due now rest := by
    rw [same, due_append, due_eq_nil undue, List.nil_append]
  refine ⟨clock, ?_, ?_⟩
  · rw [left]
    have filtered := perm.filter fun t => decide (t.due ≤ now)
    rwa [List.filter_cons_of_pos (by simpa using isDue)] at filtered
  · intro u mem
    rw [left] at mem
    exact first u (List.mem_of_mem_filter mem)

theorem exists_adds (s : Timers κ) (more : List (Int × κ)) : ∃ s', Adds s more s' := by
  induction more generalizing s with
  | nil => exact ⟨s, .nil⟩
  | cons p more ih =>
    obtain ⟨s', adds⟩ := ih (s.addTimer s.clock p.1 p.2)
    exact ⟨s', .cons le_rfl adds⟩

/-- While a timer is due, one is fired. -/
theorem exists_fire (body : κ → List (Int × κ)) (waiting : due now s.queue ≠ []) :
    ∃ t s', Fire body now s t s' := by
  obtain ⟨u, mem⟩ := List.exists_mem_of_ne_nil _ waiting
  obtain ⟨u_mem, u_due⟩ := List.mem_filter.mp mem
  rw [decide_eq_true_eq] at u_due
  obtain ⟨t, least⟩ : ∃ t, t ∈ s.queue.argmin Timer.due := by
    cases found : s.queue.argmin Timer.due with
    | none =>
      rw [List.argmin_eq_none.mp found] at u_mem
      cases u_mem
    | some t => exact ⟨t, rfl⟩
  have leq (v : Timer κ) (v_mem : v ∈ s.queue) : t.due ≤ v.due :=
    not_lt.mp (List.not_lt_of_mem_argmin v_mem least)
  obtain ⟨before, after, split⟩ := List.append_of_mem (List.argmin_mem least)
  obtain ⟨s', adds⟩ := exists_adds { s with queue := before ++ after } (body t.cb)
  refine ⟨t, s', .fire ?_ ?_ ((leq u u_mem).trans u_due) adds⟩
  · rw [split]
    exact List.perm_middle
  · intro v v_mem
    apply leq v
    rw [split]
    simp only [List.mem_append, List.mem_cons] at v_mem ⊢
    tauto

/-- `fire_timers` ends after at most as many turns as timers were due when it read the clock, and
then it has fired these, once each, in the order in which they were due. -/
theorem fire_timers (positive : ∀ cb, ∀ p ∈ body cb, 0 < p.1) (past : now ≤ s.clock)
    {fired : List (Timer κ)} (steps : Steps (Fire body now) s fired s') :
    fired.length + (due now s'.queue).length = (due now s.queue).length ∧
      (due now s'.queue = [] → fired.Perm (due now s.queue) ∧
        fired.Pairwise fun t u => t.due ≤ u.due) ∧
      (due now s'.queue ≠ [] → ∃ t s'', Fire body now s' t s'') := by
  have kept {s t s'} (past : now ≤ s.clock) (fire : Fire body now s t s') : now ≤ s'.clock :=
    past.trans (fire.due_perm positive past).1
  have history := steps.keeps_history (I := fun s => now ≤ s.clock)
    (R := fun fired s' => (due now s.queue).Perm (fired ++ due now s'.queue) ∧
      (fired.Pairwise fun t u => t.due ≤ u.due) ∧
      ∀ t ∈ fired, ∀ u ∈ due now s'.queue, t.due ≤ u.due)
    kept ?_ past ⟨.refl _, .nil, by simp⟩
  · obtain ⟨perm, sorted, -⟩ := history
    refine ⟨by rw [perm.length_eq, List.length_append], ?_, exists_fire body⟩
    intro none
    rw [none, List.append_nil] at perm
    exact ⟨perm.symm, sorted⟩
  · rintro fired s₁ t s₂ past ⟨perm, sorted, before⟩ fire
    obtain ⟨-, next, first⟩ := fire.due_perm positive past
    refine ⟨?_, ?_, ?_⟩
    · rw [List.append_assoc]
      exact perm.trans (next.append_left fired)
    · rw [List.pairwise_append]
      refine ⟨sorted, List.pairwise_singleton _ _, ?_⟩
      intro u mem v here
      rw [List.mem_singleton.mp here]
      exact before u mem t (next.mem_iff.mpr List.mem_cons_self)
    · intro u mem v here
      rcases List.mem_append.mp mem with mem | mem
      · exact before u mem v (next.mem_iff.mpr (List.mem_cons_of_mem _ here))
      · rw [List.mem_singleton.mp mem]
        exact first v here

/-- Two timers are due, the later one in front. -/
theorem fire_timers_two :
    Steps (Fire (jobs 5) 200) ⟨200, [⟨150, Job.snapshot⟩, ⟨100, .tick⟩]⟩
        [⟨100, .tick⟩, ⟨150, .snapshot⟩] ⟨203, [⟨5000203, .snapshot⟩, ⟨100000201, .tick⟩]⟩ ∧
      [(⟨100, .tick⟩ : Timer Job), ⟨150, .snapshot⟩].Perm
        (due 200 [⟨150, .snapshot⟩, ⟨100, .tick⟩]) ∧
      [(⟨100, .tick⟩ : Timer Job), ⟨150, .snapshot⟩].Pairwise fun t u => t.due ≤ u.due := by
  have first : Fire (jobs 5) 200 ⟨200, [⟨150, Job.snapshot⟩, ⟨100, .tick⟩]⟩ ⟨100, .tick⟩
      ⟨201, [⟨100000201, .tick⟩, ⟨150, .snapshot⟩]⟩ :=
    .fire (List.Perm.swap _ _ _) (by decide) (by decide) (.cons (by decide) .nil)
  have second : Fire (jobs 5) 200 ⟨201, [⟨100000201, Job.tick⟩, ⟨150, .snapshot⟩]⟩ ⟨150, .snapshot⟩
      ⟨203, [⟨5000203, .snapshot⟩, ⟨100000201, .tick⟩]⟩ :=
    .fire (List.Perm.swap _ _ _) (by decide) (by decide) (.cons (by decide) .nil)
  have steps := (Steps.single first).snoc second
  have positive : ∀ j, ∀ p ∈ jobs 5 j, 0 < p.1 := by
    rintro (_ | _) <;> decide
  obtain ⟨-, all, -⟩ := fire_timers positive (show (200 : Int) ≤ 200 from le_rfl) steps
  exact ⟨steps, all (by decide)⟩

end

/-! ### The server -/

section
variable {interval now : Int} {log : List (Int × Job)} {s s' : Timers Job} {t : Timer Job}

/-- A job ran the delay of the job after the earlier one, or later. -/
def Spaced (interval : Int) (log : List (Int × Job)) : Prop :=
  log.Pairwise fun x y => x.2 = y.2 → x.1 + x.2.delay interval * ms ≤ y.1

/-- Both jobs have a timer, which is due no later than their delay from now and no earlier than
their delay after each time they ran. -/
structure Kept (interval : Int) (log : List (Int × Job)) (s : Timers Job) : Prop where
  jobs : (s.queue.map Timer.cb).Perm [.tick, .snapshot]
  soon : ∀ t ∈ s.queue, t.due ≤ s.clock + t.cb.delay interval * ms
  rested : ∀ t ∈ s.queue, ∀ n, (n, t.cb) ∈ log → n + t.cb.delay interval * ms ≤ t.due
  spaced : Spaced interval log

theorem Job.delay_pos (positive : 0 < interval) (j : Job) : 0 < j.delay interval * ms := by
  cases j with
  | tick =>
    change 0 < (100 : Int) * 1000000
    norm_num
  | snapshot =>
    change 0 < interval * 1000000
    omega

theorem kept_started {clock : Int} (added : Adds ⟨clock, []⟩ [(Job.tick.delay interval, .tick),
    (Job.snapshot.delay interval, .snapshot)] s) (positive : 0 < interval) : Kept interval [] s := by
  cases added with
  | cons later rest =>
    cases rest with
    | cons later' rest =>
      cases rest
      refine ⟨List.Perm.swap _ _ _, ?_, by simp, .nil⟩
      have := Job.delay_pos positive .tick
      intro t mem
      simp only [addTimer, List.mem_cons, List.not_mem_nil, or_false] at mem later' ⊢
      rcases mem with rfl | rfl
      · exact le_rfl
      · dsimp only
        omega

theorem Kept.fire (kept : Kept interval log s) (positive : 0 < interval) (past : now ≤ s.clock)
    (fire : Fire (Timers.jobs interval) now s t s') :
    Kept interval (log ++ [(now, t.cb)]) s' ∧ now ≤ s'.clock := by
  cases fire with
  | @fire _ _ rest perm first isDue added =>
  cases added with
  | @cons _ _ reading _ _ _ later adds =>
  cases adds
  have delay := Job.delay_pos positive t.cb
  have t_mem : t ∈ s.queue := perm.mem_iff.mpr List.mem_cons_self
  have rest_mem (u : Timer Job) (mem : u ∈ rest) : u ∈ s.queue :=
    perm.mem_iff.mpr (List.mem_cons_of_mem _ mem)
  have same : (t.cb :: rest.map Timer.cb).Perm [.tick, .snapshot] :=
    (perm.map Timer.cb).symm.trans kept.jobs
  have once : t.cb ∉ rest.map Timer.cb :=
    (List.nodup_cons.mp (same.nodup_iff.mpr (by decide))).1
  dsimp only at later
  refine ⟨⟨same, ?_, ?_, ?_⟩, past.trans later⟩
  · intro u mem
    rcases List.mem_cons.mp mem with rfl | mem
    · exact le_rfl
    · have := kept.soon u (rest_mem u mem)
      dsimp only [addTimer]
      omega
  · intro u mem n ran
    rcases List.mem_cons.mp mem with rfl | mem
    · dsimp only at ran ⊢
      rcases List.mem_append.mp ran with ran | ran
      · have := kept.rested t t_mem n ran
        omega
      · obtain ⟨rfl, -⟩ := Prod.mk.inj (List.mem_singleton.mp ran)
        omega
    · rcases List.mem_append.mp ran with ran | ran
      · exact kept.rested u (rest_mem u mem) n ran
      · obtain ⟨-, here⟩ := Prod.mk.inj (List.mem_singleton.mp ran)
        exact absurd (List.mem_map.mpr ⟨u, mem, here⟩) once
  · refine List.pairwise_append.mpr ⟨kept.spaced, List.pairwise_singleton _ _, ?_⟩
    rintro ⟨n, j⟩ ran y last
    rw [List.mem_singleton.mp last]
    rintro rfl
    exact (kept.rested t t_mem n ran).trans isDue

theorem Runs.kept (positive : 0 < interval) (runs : Runs interval log s) : Kept interval log s := by
  induction runs with
  | started added => exact kept_started added positive
  | @fired log s s' ts now _ later steps _ ih =>
    have begun : Kept interval log { s with clock := now } :=
      ⟨ih.jobs, fun t mem => (ih.soon t mem).trans (by dsimp only; omega), ih.rested, ih.spaced⟩
    refine (steps.keeps_history (I := fun _ => True)
      (R := fun ts s' => Kept interval (log ++ ts.map fun t => (now, t.cb)) s' ∧ now ≤ s'.clock)
      (fun _ _ => trivial) ?_ trivial ⟨by simpa using begun, le_rfl⟩).1
    rintro ts s₁ t s₂ - ⟨kept, past⟩ fire
    rw [List.map_append, List.map_singleton, ← List.append_assoc]
    exact kept.fire positive past fire
  | waited _ later ih =>
    exact ⟨ih.jobs, fun t mem => (ih.soon t mem).trans (by dsimp only; omega), ih.rested, ih.spaced⟩

/-- At all times the server has one timer for each job, a job does not run before its delay has
passed since it ran last, and `epoll_wait` is given the time to the next timer: it does not sleep
past it, and less than a millisecond is left when it wakes. -/
theorem jobs_kept (positive : 0 < interval) (inRange : interval < 2 ^ 31)
    (runs : Runs interval log s) :
    (s.queue.map Timer.cb).Perm [.tick, .snapshot] ∧ Spaced interval log ∧
      ∀ reading, s.clock ≤ reading → ∃ top ∈ s.queue, (∀ t ∈ s.queue, top.due ≤ t.due) ∧
        0 ≤ s.pollTimeout reading ∧
        (reading < top.due → reading + s.pollTimeout reading * ms ≤ top.due ∧
          top.due < reading + (s.pollTimeout reading + 1) * ms) ∧
        (top.due ≤ reading → s.pollTimeout reading = 0) := by
  have kept := runs.kept positive
  refine ⟨kept.jobs, kept.spaced, ?_⟩
  intro reading later
  obtain ⟨top, here, leq, least⟩ : ∃ top ∈ s.queue, (∀ t ∈ s.queue, top.due ≤ t.due) ∧
      (s.queue.map Timer.due).min? = some top.due := by
    cases least : (s.queue.map Timer.due).min? with
    | none =>
      have length := kept.jobs.length_eq
      rw [List.length_map, ← List.length_map Timer.due, List.min?_eq_none_iff.mp least] at length
      cases length
    | some due =>
      obtain ⟨mem, leq⟩ := List.min?_eq_some_iff.mp least
      obtain ⟨top, here, rfl⟩ := List.mem_map.mp mem
      exact ⟨top, here, fun t mem => leq _ (List.mem_map_of_mem mem), rfl⟩
  have timeout : s.pollTimeout reading = toInt32 (max 0 (Int.tdiv (top.due - reading) ms)) := by
    rw [pollTimeout, least]
  have bound : top.due - reading < 2 ^ 31 * ms := by
    have := kept.soon top here
    have delay : top.cb.delay interval * ms < 2 ^ 31 * ms := by
      unfold Job.delay ms
      split <;> omega
    omega
  refine ⟨top, here, leq, ?_⟩
  by_cases passed : top.due ≤ reading
  · have none : Int.tdiv (top.due - reading) ms ≤ 0 := by
      rw [← neg_nonneg, ← Int.neg_tdiv]
      exact Int.tdiv_nonneg (by omega) (by unfold ms; norm_num)
    rw [timeout, max_eq_left none, toInt32_of_range (by norm_num) (by norm_num)]
    exact ⟨le_rfl, fun ahead => absurd passed (by omega), fun _ => rfl⟩
  · have whole : Int.tdiv (top.due - reading) ms = (top.due - reading) / ms :=
      Int.tdiv_eq_ediv_of_nonneg (by omega)
    unfold ms at whole bound timeout
    rw [whole, max_eq_right (by omega), toInt32_of_range (by omega) (by omega)] at timeout
    rw [timeout]
    unfold ms
    refine ⟨?_, ?_, ?_⟩ <;> omega

/-- A server whose first ticks came after a tenth and a quarter of a second. -/
theorem jobs_kept_tick : ∃ s, Runs 300000 [(100000000, .tick), (250000000, .tick)] s ∧
    (s.queue.map Timer.cb).Perm [.tick, .snapshot] ∧
    Spaced 300000 [(100000000, .tick), (250000000, .tick)] ∧ s.pollTimeout 300000000 = 50 := by
  have begun : Runs 300000 [] ⟨0, [⟨300000000000, .snapshot⟩, ⟨100000000, .tick⟩]⟩ :=
    .started (.cons (le_refl 0) (.cons (le_refl 0) .nil))
  have tick : Fire (jobs 300000) 100000000
      ⟨100000000, [⟨300000000000, .snapshot⟩, ⟨100000000, .tick⟩]⟩ ⟨100000000, .tick⟩
      ⟨100000000, [⟨200000000, .tick⟩, ⟨300000000000, .snapshot⟩]⟩ :=
    .fire (List.Perm.swap _ _ _) (by decide) (by decide) (.cons le_rfl .nil)
  have later : Fire (jobs 300000) 250000000
      ⟨250000000, [⟨200000000, .tick⟩, ⟨300000000000, .snapshot⟩]⟩ ⟨200000000, .tick⟩
      ⟨250000000, [⟨350000000, .tick⟩, ⟨300000000000, .snapshot⟩]⟩ :=
    .fire (List.Perm.refl _) (by decide) (by decide) (.cons le_rfl .nil)
  have once := begun.fired (show (0 : Int) ≤ 100000000 by decide) (.single tick) (by decide)
  have twice := once.fired (show (100000000 : Int) ≤ 250000000 by decide) (.single later) (by decide)
  obtain ⟨jobs, spaced, -⟩ := jobs_kept (by decide) (by decide) twice
  exact ⟨_, twice, jobs, spaced, by decide⟩

end

end FastGraph.Timers
