import FastGraph.Thread.ThreadPool

/-!
# Runs of the thread pool

What holds after any interleaving of the threads: tasks are begun in the order they were
submitted in, each once; a worker does not sleep beside a task that nobody is on the way to; and
once the destructor is called it ends, with every task run.
-/

namespace FastGraph.ThreadPool

variable {T : Type} {p p' : ThreadPool T} {i : Nat} {action : Action T}
  {actions : List (Action T)}

section Tally

variable {workers : List (Worker T)} {w : Worker T}

/-- A count over the workers. -/
def tally (f : Worker T → Nat) (workers : List (Worker T)) : Nat := (workers.map f).sum

theorem tally_set (f : Worker T → Nat) (at_i : workers[i]? = some w) (b : Worker T) :
    tally f (workers.set i b) + f w = tally f workers + f b := by
  induction workers generalizing i with
  | nil => simp at at_i
  | cons a workers ih =>
    cases i with
    | zero =>
      obtain rfl : a = w := by simpa using at_i
      simp only [tally, List.set_cons_zero, List.map_cons, List.sum_cons]
      omega
    | succ i =>
      have tail := ih (i := i) (by simpa using at_i)
      simp only [tally, List.set_cons_succ, List.map_cons, List.sum_cons] at tail ⊢
      omega

theorem tally_eq_zero (f : Worker T → Nat) (none : ∀ w ∈ workers, f w = 0) :
    tally f workers = 0 := by
  simpa [tally, List.sum_eq_zero_iff] using none

theorem tally_wake_le (f : Worker T → Nat) (less : ∀ w : Worker T, f w.wake ≤ f w) :
    tally f (workers.map Worker.wake) ≤ tally f workers := by
  induction workers with
  | nil => exact Nat.le_refl _
  | cons w workers ih =>
    have head := less w
    simp only [tally, List.map_cons, List.sum_cons] at ih ⊢
    omega

/-- One worker goes on: its task leaves the running ones and a new one may join them. -/
theorem filterMap_set_perm {f : Worker T → Option T} (at_i : workers[i]? = some w) (b : Worker T) :
    ((f w).toList ++ (workers.set i b).filterMap f).Perm ((f b).toList ++ workers.filterMap f) := by
  induction workers generalizing i with
  | nil => simp at at_i
  | cons a workers ih =>
    cases i with
    | zero =>
      obtain rfl : a = w := by simpa using at_i
      cases ha : f a <;> cases hb : f b <;> simp [ha, hb, List.Perm.swap]
    | succ i =>
      have tail := ih (i := i) (by simpa using at_i)
      cases ha : f a with
      | none => simpa [ha] using tail
      | some task =>
        simp only [List.set_cons_succ, List.filterMap_cons, ha]
        exact List.perm_middle.trans ((tail.cons task).trans List.perm_middle.symm)

end Tally

section Cases

variable {task : T} {what : Bytes}

theorem submit_returned (pushed : p.submit task = Outcome.returned p') :
    p.stop = false ∧
      p' = { p with queue := p.queue ++ [task], notifying := p.notifying + 1 } := by
  unfold submit at pushed
  split at pushed
  · cases pushed
  · rename_i running
    exact ⟨by simpa using running, (Outcome.returned_inj.mp pushed).symm⟩

/-- What a worker does with the mutex. -/
theorem turn_cases (p : ThreadPool T) (i : Nat) :
    (p.stop = false ∧ p.queue = [] ∧ p.turn i = (p.goes i .waiting, none)) ∨
    (p.stop = true ∧ p.queue = [] ∧ p.turn i = (p.goes i .returned, none)) ∨
    ∃ task queue, p.queue = task :: queue ∧
      p.turn i = ({ p.goes i (.running task) with queue := queue }, some task) := by
  unfold turn
  cases hq : p.queue with
  | nil =>
    cases hs : p.stop with
    | false => exact Or.inl ⟨rfl, rfl, rfl⟩
    | true => exact Or.inr (Or.inl ⟨rfl, rfl, rfl⟩)
  | cons task queue => exact Or.inr (Or.inr ⟨task, queue, rfl, by cases p.stop <;> rfl⟩)

end Cases

/-- A worker that is on its way to the mutex. -/
def locks : Worker T → Nat
  | .locking => 1
  | _ => 0

/-- The invariant of the pool with `n` workers. -/
structure Valid (n : Nat) (p : ThreadPool T) : Prop where
  size : p.workers.length = n
  stopped : p.stop = true ↔ p.destructor ≠ .uncalled
  /-- nobody waits once everybody has been notified -/
  awake : ∀ k, p.destructor = .joining k → Worker.waiting ∉ p.workers
  joined : ∀ k, p.destructor = .joining k → k ≤ n
  /-- a worker returns only when there is nothing left to do -/
  drained : Worker.returned ∈ p.workers → p.stop = true ∧ p.queue = []
  /-- beside a worker that waits, somebody is on the way to every task in the queue -/
  noticed : Worker.waiting ∈ p.workers →
    p.queue.length ≤ p.notifying + tally locks p.workers

theorem valid_construct {n : Nat} (made : construct n = Outcome.returned p) :
    0 < n ∧ p.Valid n ∧ p.queue = [] ∧ p.runningTasks = [] := by
  unfold construct at made
  split at made
  · cases made
  · rename_i some
    obtain rfl := (Outcome.returned_inj.mp made).symm
    refine ⟨by omega, ⟨?_, ?_, ?_, ?_, ?_, ?_⟩, rfl, ?_⟩ <;>
      simp [runningTasks, List.mem_replicate, Worker.task]

theorem mem_of_goes {w b : Worker T} (mem : w ∈ (p.goes i b).workers) (other : w ≠ b) :
    w ∈ p.workers :=
  (List.mem_or_eq_of_mem_set mem).resolve_right other

theorem mem_of_wake {workers : List (Worker T)} (mem : Worker.returned ∈ workers.map Worker.wake) :
    Worker.returned ∈ workers := by
  obtain ⟨w, mem, same⟩ := List.mem_map.mp mem
  cases w with
  | returned => exact mem
  | locking | waiting | running task => cases same

theorem waiting_notMem_wake (workers : List (Worker T)) :
    Worker.waiting ∉ workers.map Worker.wake := by
  intro mem
  obtain ⟨w, -, same⟩ := List.mem_map.mp mem
  cases w <;> cases same

@[simp] theorem goes_workers (b : Worker T) : (p.goes i b).workers = p.workers.set i b := rfl

/-- A worker goes on before its mutex: one more is on the way. -/
theorem tally_locking {w : Worker T} (at_i : p.workers[i]? = some w) (other : locks w = 0) :
    tally locks (p.workers.set i .locking) = tally locks p.workers + 1 := by
  have moved := tally_set locks at_i .locking
  rwa [other] at moved

/-- A worker that was on the way has taken its turn. -/
theorem tally_turned {b : Worker T} (at_i : p.workers[i]? = some .locking) (other : locks b = 0) :
    tally locks (p.workers.set i b) + 1 = tally locks p.workers := by
  have moved := tally_set locks at_i b
  rwa [other] at moved

theorem valid_submit {n : Nat} {task : T} (valid : p.Valid n)
    (pushed : p.submit task = Outcome.returned p') : p'.Valid n := by
  obtain ⟨running, rfl⟩ := submit_returned pushed
  refine { valid with drained := ?_, noticed := ?_ }
  · intro mem
    have stopped := (valid.drained mem).1
    rw [running] at stopped
    cases stopped
  · intro mem
    have before := valid.noticed mem
    simp only [List.length_append, List.length_cons, List.length_nil]
    omega

/-- A worker goes on before the mutex, woken from its wait or with its task done. -/
theorem valid_locking {n : Nat} {w : Worker T} (valid : p.Valid n) (at_i : p.workers[i]? = some w)
    (other : locks w = 0) : (p.goes i .locking).Valid n where
  size := by simpa using valid.size
  stopped := valid.stopped
  awake := by
    intro k joining mem
    exact valid.awake k joining (mem_of_goes mem (by simp))
  joined := valid.joined
  drained := fun mem => valid.drained (mem_of_goes mem (by simp))
  noticed := by
    intro mem
    have before := valid.noticed (mem_of_goes mem (by simp))
    rw [goes_workers, tally_locking at_i other]
    exact before.trans (Nat.le_succ _)

theorem valid_notifyOne {n m : Nat} (valid : p.Valid n) (called : p.notifying = m + 1)
    (waits : p.workers[i]? = some .waiting) :
    Valid n { p.goes i .locking with notifying := m } := by
  refine { valid_locking valid waits rfl with noticed := ?_ }
  intro mem
  have before := valid.noticed (mem_of_goes mem (by simp))
  have moved := tally_locking waits rfl
  simp only [goes_workers] at moved ⊢
  change p.queue.length ≤ _
  omega

theorem valid_turn {n : Nat} (valid : p.Valid n) (at_i : p.workers[i]? = some .locking) :
    (p.turn i).1.Valid n := by
  have here := List.mem_of_getElem? at_i
  obtain ⟨running, empty, turn⟩ | ⟨stopped, empty, turn⟩ | ⟨task, queue, nonempty, turn⟩ :=
    turn_cases p i
  · -- the predicate is false: the worker waits, and there is no task to be noticed
    rw [turn]
    refine ⟨by simpa using valid.size, valid.stopped, ?_, valid.joined, ?_, ?_⟩
    · intro k joining
      have stop := valid.stopped.mpr (by rw [show p.destructor = _ from joining]; simp)
      rw [running] at stop
      cases stop
    · intro mem
      exact valid.drained (mem_of_goes mem (by simp))
    · intro mem
      simp [goes, empty]
  · rw [turn]
    refine ⟨by simpa using valid.size, valid.stopped, ?_, valid.joined, ?_, ?_⟩
    · intro k joining mem
      exact valid.awake k joining (mem_of_goes mem (by simp))
    · intro mem
      exact ⟨stopped, empty⟩
    · intro mem
      simp [goes, empty]
  · rw [turn]
    refine ⟨by simpa using valid.size, valid.stopped, ?_, valid.joined, ?_, ?_⟩
    · intro k joining mem
      exact valid.awake k joining (mem_of_goes (b := .running task) mem (by simp))
    · intro mem
      have drained := (valid.drained (mem_of_goes (b := .running task) mem (by simp))).2
      rw [nonempty] at drained
      cases drained
    · intro mem
      have before := valid.noticed (mem_of_goes (b := .running task) mem (by simp))
      have moved := tally_turned (b := .running task) at_i rfl
      rw [nonempty, List.length_cons] at before
      change queue.length ≤ p.notifying + tally locks (p.workers.set i (.running task))
      omega

theorem valid_step {n : Nat} (valid : p.Valid n) (step : Step p action p') : p'.Valid n := by
  cases step with
  | submitted pushed => exact valid_submit valid pushed
  | refused => exact valid
  | notifiedOne called waits => exact valid_notifyOne valid called waits
  | notifiedNone called nobody =>
    exact { valid with noticed := fun mem => absurd mem nobody }
  | woken waits => exact valid_locking valid waits rfl
  | turned locks => exact valid_turn valid locks
  | finished runs => exact valid_locking valid runs rfl
  | destroying uncalled =>
    refine ⟨valid.size, ?_, ?_, ?_, ?_, valid.noticed⟩
    · simp [beginDestroy]
    · intro k joining
      cases joining
    · intro k joining
      cases joining
    · intro mem
      exact ⟨rfl, (valid.drained mem).2⟩
  | notifiedAll notifying =>
    refine ⟨by simpa [notifyAll] using valid.size, ?_, ?_, ?_, ?_, ?_⟩
    · simp [notifyAll, valid.stopped, notifying]
    · intro k joining
      exact waiting_notMem_wake p.workers
    · intro k joining
      obtain rfl : 0 = k := by simpa [notifyAll] using joining
      exact Nat.zero_le n
    · intro mem
      exact valid.drained (mem_of_wake mem)
    · intro mem
      exact absurd mem (waiting_notMem_wake p.workers)
  | @joined k joining ended =>
    refine ⟨valid.size, ?_, ?_, ?_, valid.drained, valid.noticed⟩
    · simp [valid.stopped, joining]
    · intro l _
      exact valid.awake k joining
    · intro l same
      obtain rfl : k + 1 = l := by simpa using same
      obtain ⟨lt, -⟩ := List.getElem?_eq_some_iff.mp ended
      have size := valid.size
      omega

theorem valid_run {n : Nat} {start : ThreadPool T} (made : construct n = Outcome.returned start)
    (run : Steps Step start actions p) : p.Valid n :=
  run.keeps valid_step (valid_construct made).2.1

/-! ## What has been submitted, begun and ended -/

theorem runningTasks_goes {w : Worker T} (at_i : p.workers[i]? = some w) (b : Worker T) :
    (w.task.toList ++ (p.goes i b).runningTasks).Perm (b.task.toList ++ p.runningTasks) :=
  filterMap_set_perm at_i b

theorem runningTasks_notifyAll (p : ThreadPool T) : p.notifyAll.runningTasks = p.runningTasks := by
  unfold runningTasks notifyAll
  rw [List.filterMap_map]
  congr 1
  funext w
  cases w <;> rfl

/-- Every accepted task is begun or in the queue, in order, and every begun one runs or has
ended. -/
def Recorded (actions : List (Action T)) (p : ThreadPool T) : Prop :=
  accepted actions = begun actions ++ p.queue ∧
    (begun actions).Perm (ended actions ++ p.runningTasks)

theorem filterMap_concat {α : Type} (f : Action T → Option α) (a : Action T) :
    (actions ++ [a]).filterMap f = actions.filterMap f ++ (f a).toList := by
  cases h : f a <;> simp [h]

/-- The history after one more action. -/
theorem recorded_concat : Recorded (actions ++ [action]) p' ↔
    accepted actions ++ action.pushed.toList = begun actions ++ action.popped.toList ++ p'.queue ∧
    (begun actions ++ action.popped.toList).Perm
      (ended actions ++ action.done.toList ++ p'.runningTasks) := by
  unfold Recorded accepted begun ended
  rw [filterMap_concat, filterMap_concat, filterMap_concat]

/-- A step that no task takes part in. -/
theorem recorded_silent (recorded : Recorded actions p) (queue : p'.queue = p.queue)
    (running : p'.runningTasks.Perm p.runningTasks) (noPush : action.pushed = none)
    (noPop : action.popped = none) (notDone : action.done = none) :
    Recorded (actions ++ [action]) p' := by
  rw [recorded_concat, noPush, noPop, notDone, queue]
  simp only [Option.toList_none, List.append_nil]
  exact ⟨recorded.1, recorded.2.trans (running.symm.append_left _)⟩

theorem recorded_submit {task : T} (recorded : Recorded actions p)
    (pushed : p.submit task = Outcome.returned p') :
    Recorded (actions ++ [.submit task]) p' := by
  obtain ⟨order, once⟩ := recorded
  obtain ⟨-, rfl⟩ := submit_returned pushed
  rw [recorded_concat]
  refine ⟨?_, ?_⟩
  · simp [order, Action.pushed, Action.popped]
  · simp only [Action.popped, Action.done, Option.toList_none, List.append_nil]
    exact once

theorem recorded_pop {task : T} {queue : List T} (recorded : Recorded actions p)
    (locks : p.workers[i]? = some .locking) (nonempty : p.queue = task :: queue) :
    Recorded (actions ++ [.turn i (some task)]) { p.goes i (.running task) with queue := queue } := by
  obtain ⟨order, once⟩ := recorded
  have running : (p.goes i (.running task)).runningTasks.Perm (task :: p.runningTasks) :=
    runningTasks_goes locks (.running task)
  rw [recorded_concat]
  refine ⟨?_, ?_⟩
  · simp [order, nonempty, Action.pushed, Action.popped]
  · simp only [Action.popped, Action.done, Option.toList_some, Option.toList_none, List.append_nil]
    have begin := once.append_right [task]
    rw [List.append_assoc] at begin
    have join : (p.runningTasks ++ [task]).Perm (p.goes i (.running task)).runningTasks :=
      List.perm_append_comm.trans running.symm
    exact begin.trans (join.append_left _)

theorem recorded_finish {task : T} (recorded : Recorded actions p)
    (runs : p.workers[i]? = some (.running task)) :
    Recorded (actions ++ [.finish i task]) (p.goes i .locking) := by
  obtain ⟨order, once⟩ := recorded
  have running : (task :: (p.goes i .locking).runningTasks).Perm p.runningTasks :=
    runningTasks_goes runs .locking
  rw [recorded_concat]
  refine ⟨?_, ?_⟩
  · simpa [Action.pushed, Action.popped, goes] using order
  · simp only [Action.popped, Action.done, Option.toList_some, Option.toList_none, List.append_nil]
    rw [List.append_assoc]
    exact once.trans (running.symm.append_left _)

theorem recorded_step (recorded : Recorded actions p) (step : Step p action p') :
    Recorded (actions ++ [action]) p' := by
  cases step with
  | submitted pushed => exact recorded_submit recorded pushed
  | refused => exact recorded_silent recorded rfl (List.Perm.refl _) rfl rfl rfl
  | notifiedOne called waits =>
    exact recorded_silent recorded rfl (runningTasks_goes waits .locking) rfl rfl rfl
  | notifiedNone => exact recorded_silent recorded rfl (List.Perm.refl _) rfl rfl rfl
  | woken waits => exact recorded_silent recorded rfl (runningTasks_goes waits .locking) rfl rfl rfl
  | @turned i locks =>
    obtain ⟨-, -, turn⟩ | ⟨-, -, turn⟩ | ⟨task, queue, nonempty, turn⟩ := turn_cases p i
    · rw [turn]
      exact recorded_silent recorded rfl (runningTasks_goes locks .waiting) rfl rfl rfl
    · rw [turn]
      exact recorded_silent recorded rfl (runningTasks_goes locks .returned) rfl rfl rfl
    · rw [turn]
      exact recorded_pop recorded locks nonempty
  | finished runs => exact recorded_finish recorded runs
  | destroying => exact recorded_silent recorded rfl (List.Perm.refl _) rfl rfl rfl
  | notifiedAll =>
    exact recorded_silent recorded rfl (runningTasks_notifyAll p ▸ List.Perm.refl _) rfl rfl rfl
  | joined => exact recorded_silent recorded rfl (List.Perm.refl _) rfl rfl rfl

theorem recorded_run {n : Nat} {start : ThreadPool T} (made : construct n = Outcome.returned start)
    (run : Steps Step start actions p) : Recorded actions p := by
  obtain ⟨-, -, queue, running⟩ := valid_construct made
  refine run.keeps_history (I := fun _ => True) (fun _ _ => trivial)
    (fun _ recorded step => recorded_step recorded step) trivial ⟨?_, ?_⟩
  · rw [queue]
    rfl
  · rw [running]
    exact List.Perm.refl _

/-! ## The work that is left once the destructor is called -/

/-- The steps that a worker may still take by itself. -/
def effort : Worker T → Nat
  | .locking => 1
  | .waiting | .running _ => 2
  | .returned => 0

/-- The steps that are left of a destructor of `n` workers. -/
def remaining (n : Nat) : Destructor → Nat
  | .uncalled => 0
  | .notifying => n + 1
  | .joining k => n - k

/-- A bound on the steps that the pool can still take by itself. -/
def work (p : ThreadPool T) : Nat :=
  2 * p.queue.length + tally effort p.workers + p.notifying +
    remaining p.workers.length p.destructor

/-- A worker that goes on with less to do. -/
theorem work_goes_lt {w b : Worker T} (at_i : p.workers[i]? = some w) (less : effort b < effort w) :
    (p.goes i b).work < p.work := by
  have moved := tally_set effort at_i b
  simp only [work, goes, List.length_set]
  omega

theorem work_turn_lt (stopped : p.stop = true) (at_i : p.workers[i]? = some .locking) :
    (p.turn i).1.work < p.work := by
  obtain ⟨running, -, -⟩ | ⟨-, -, turn⟩ | ⟨task, queue, nonempty, turn⟩ := turn_cases p i
  · rw [stopped] at running
    cases running
  · rw [turn]
    exact work_goes_lt at_i (by simp [effort])
  · rw [turn]
    have moved := tally_set effort at_i (.running task)
    simp only [work, goes, effort, List.length_set, nonempty, List.length_cons] at moved ⊢
    omega

theorem work_notifyAll_lt (notifying : p.destructor = .notifying) : p.notifyAll.work < p.work := by
  have less : tally effort (p.workers.map Worker.wake) ≤ tally effort p.workers := by
    refine tally_wake_le effort ?_
    intro w
    cases w <;> simp [Worker.wake, effort]
  simp only [work, notifyAll, remaining, notifying, List.length_map]
  omega

/-- Once `stop_` is set, whatever the pool does by itself lessens the work that is left. -/
theorem work_lt (stopped : p.stop = true) (internal : action.internal = true)
    (step : Step p action p') : p'.work < p.work := by
  cases step with
  | submitted | refused | destroying => cases internal
  | notifiedOne called waits =>
    have moved := tally_set effort waits .locking
    simp only [work, goes, effort, List.length_set, called] at moved ⊢
    omega
  | notifiedNone called nobody =>
    simp only [work, called]
    omega
  | woken waits => exact work_goes_lt waits (by simp [effort])
  | turned locks => exact work_turn_lt stopped locks
  | finished runs => exact work_goes_lt runs (by simp [effort])
  | notifiedAll notifying => exact work_notifyAll_lt notifying
  | joined joining ended =>
    obtain ⟨lt, -⟩ := List.getElem?_eq_some_iff.mp ended
    simp only [work, joining, remaining]
    omega

theorem stop_step (stopped : p.stop = true) (step : Step p action p') : p'.stop = true := by
  cases step with
  | submitted pushed =>
    obtain ⟨running, rfl⟩ := submit_returned pushed
    exact stopped
  | refused | notifiedOne | notifiedNone | woken | finished | notifiedAll | joined => exact stopped
  | @turned i =>
    obtain ⟨-, -, turn⟩ | ⟨-, -, turn⟩ | ⟨task, queue, -, turn⟩ := turn_cases p i <;>
      rw [turn] <;> exact stopped
  | destroying => rfl

/-! ## What a quiet pool is like -/

theorem notifying_of_quiet (quiet : p.Quiet) : p.notifying = 0 := by
  cases called : p.notifying with
  | zero => rfl
  | succ n =>
    by_cases waits : Worker.waiting ∈ p.workers
    · obtain ⟨i, at_i⟩ := List.mem_iff_getElem?.mp waits
      obtain ⟨_, same⟩ := quiet _ _ (.notifiedOne called at_i) rfl
      cases same
    · obtain ⟨_, same⟩ := quiet _ _ (.notifiedNone called waits) rfl
      cases same

/-- In a quiet pool every worker waits or has returned. -/
theorem worker_of_quiet (quiet : p.Quiet) {w : Worker T} (mem : w ∈ p.workers) :
    w = .waiting ∨ w = .returned := by
  obtain ⟨i, at_i⟩ := List.mem_iff_getElem?.mp mem
  cases w with
  | waiting => exact Or.inl rfl
  | returned => exact Or.inr rfl
  | locking =>
    obtain ⟨_, same⟩ := quiet _ _ (.turned at_i) rfl
    cases same
  | running task =>
    obtain ⟨_, same⟩ := quiet _ _ (.finished at_i) rfl
    cases same

theorem runningTasks_of_quiet (quiet : p.Quiet) : p.runningTasks = [] := by
  refine List.filterMap_eq_nil_iff.mpr ?_
  intro w mem
  obtain rfl | rfl := worker_of_quiet quiet mem <;> rfl

theorem queue_of_quiet {n : Nat} (some : 0 < n) (valid : p.Valid n) (quiet : p.Quiet) :
    p.queue = [] := by
  have first : 0 < p.workers.length := by
    have size := valid.size
    omega
  obtain same | same := worker_of_quiet quiet (List.getElem_mem first)
  · have noticed := valid.noticed (same ▸ List.getElem_mem first)
    have nobody : tally locks p.workers = 0 := by
      refine tally_eq_zero locks ?_
      intro w mem
      obtain rfl | rfl := worker_of_quiet quiet mem <;> rfl
    rw [notifying_of_quiet quiet, nobody] at noticed
    exact List.length_eq_zero_iff.mp (by omega)
  · exact (valid.drained (same ▸ List.getElem_mem first)).2

/-- A quiet pool whose destructor has been called has nobody left to join. -/
theorem destroyed_of_quiet {n : Nat} (valid : p.Valid n) (quiet : p.Quiet)
    (stopped : p.stop = true) : p.destroyed := by
  cases destructor : p.destructor with
  | uncalled => exact absurd destructor (valid.stopped.mp stopped)
  | notifying =>
    obtain ⟨_, same⟩ := quiet _ _ (.notifiedAll destructor) rfl
    cases same
  | joining k =>
    have le := valid.joined k destructor
    have size := valid.size
    obtain lt | same := Nat.lt_or_eq_of_le le
    · have at_k : p.workers[k]? = some p.workers[k] := List.getElem?_eq_getElem (by omega)
      obtain same | same := worker_of_quiet quiet (List.getElem_mem (by omega : k < p.workers.length))
      · exact absurd (same ▸ List.getElem_mem _) (valid.awake k destructor)
      · rw [same] at at_k
        obtain ⟨_, same⟩ := quiet _ _ (.joined destructor at_k) rfl
        cases same
    · rw [destroyed, destructor, same, size]

/-- A quiet pool has run every task that it accepted. -/
theorem ended_of_quiet {n : Nat} (some : 0 < n) (valid : p.Valid n) (recorded : Recorded actions p)
    (quiet : p.Quiet) : (ended actions).Perm (accepted actions) := by
  obtain ⟨order, once⟩ := recorded
  rw [runningTasks_of_quiet quiet, List.append_nil] at once
  rw [queue_of_quiet some valid quiet, List.append_nil] at order
  exact order ▸ once.symm

/-! ## The runs -/

variable {n : Nat} {start : ThreadPool T}

/-- Whatever the order the threads take their steps in, tasks are begun in the order in which
`submit` took them, each once, and the queue holds the rest; a task that was begun runs or has
run to its end. -/
theorem begun_in_order (made : construct n = Outcome.returned start)
    (run : Steps Step start actions p) :
    accepted actions = begun actions ++ p.queue ∧
      (begun actions).Perm (ended actions ++ p.runningTasks) :=
  recorded_run made run

/-- No wakeup is lost: where the pool has nothing to do by itself, no task is in the queue and
every task that was accepted has run to its end, however the notifications and the workers came
in between each other. -/
theorem quiet_ended (made : construct n = Outcome.returned start)
    (run : Steps Step start actions p) (quiet : p.Quiet) :
    p.queue = [] ∧ (ended actions).Perm (accepted actions) := by
  have some := (valid_construct made).1
  have valid := valid_run made run
  exact ⟨queue_of_quiet some valid quiet, ended_of_quiet some valid (recorded_run made run) quiet⟩

/-- From the call of the destructor on, the pool can take only so many steps by itself, and when
it can take no more the destructor has joined every worker, each of them has returned, and every
task that was ever accepted has run to its end once. -/
theorem destructor_ends (made : construct n = Outcome.returned start)
    (run : Steps Step start actions p) (stopped : p.stop = true) :
    (∀ more p', Steps Step p more p' → (∀ action ∈ more, action.internal = true) →
      more.length ≤ p.work) ∧
    (p.Quiet → p.destroyed ∧ (∀ w ∈ p.workers, w = .returned) ∧
      (ended actions).Perm (accepted actions)) := by
  have some := (valid_construct made).1
  have valid := valid_run made run
  refine ⟨?_, ?_⟩
  · intro more p' steps internal
    have bound := steps.length_le (I := fun p => p.stop = true) work stop_step work_lt stopped
      internal
    omega
  · intro quiet
    have destroyed := destroyed_of_quiet valid quiet stopped
    refine ⟨destroyed, ?_, ended_of_quiet some valid (recorded_run made run) quiet⟩
    intro w mem
    obtain rfl | rfl := worker_of_quiet quiet mem
    · exact absurd mem (valid.awake _ destroyed)
    · rfl

/-! ## A run -/

/-- A pool of two workers. -/
def pair : ThreadPool Nat := ⟨[.locking, .locking], [], false, 0, .uncalled⟩

/-- Workers that have run two tasks and wait again. -/
def idle : ThreadPool Nat := ⟨[.waiting, .waiting], [], false, 0, .uncalled⟩

/-- The second task ends before the first. -/
def idleActions : List (Action Nat) :=
  [.turn 0 none, .turn 1 none, .submit 5, .submit 7, .notifyOne, .turn 0 (some 5), .notifyOne,
    .turn 1 (some 7), .finish 1 7, .finish 0 5, .turn 0 none, .turn 1 none]

theorem run_idle : Steps Step pair idleActions idle := by
  have waiting : Steps Step pair [.turn 0 none, .turn 1 none] idle :=
    .snoc (.snoc .refl (.turned rfl)) (.turned rfl)
  have running : Steps Step pair [.turn 0 none, .turn 1 none, .submit 5, .submit 7, .notifyOne,
      .turn 0 (some 5), .notifyOne, .turn 1 (some 7)]
      ⟨[.running 5, .running 7], [], false, 0, .uncalled⟩ :=
    .snoc (.snoc (.snoc (.snoc (.snoc (.snoc waiting (.submitted rfl)) (.submitted rfl))
      (.notifiedOne rfl (i := 0) rfl)) (.turned rfl)) (.notifiedOne rfl (i := 1) rfl)) (.turned rfl)
  exact .snoc (.snoc (.snoc (.snoc running (.finished rfl)) (.finished rfl)) (.turned rfl)) (.turned rfl)

/-- No worker of a pair is at a place from which it goes on by itself. -/
theorem quiet_of_pair {p : ThreadPool Nat} {w : Worker Nat} (workers : p.workers = [w, w])
    (still : w = .waiting ∨ w = .returned) (notifying : p.notifying = 0)
    (destructor : p.destructor = .uncalled ∨ p.destructor = .joining 2) : p.Quiet := by
  intro action p' step internal
  cases step with
  | submitted | refused | destroying => cases internal
  | woken => exact ⟨_, rfl⟩
  | notifiedOne called | notifiedNone called =>
    rw [notifying] at called
    cases called
  | notifiedAll ringing =>
    rw [ringing] at destructor
    rcases destructor with same | same <;> cases same
  | joined joining ended =>
    rw [joining] at destructor
    rcases destructor with same | same <;> cases same
    rw [workers] at ended
    cases ended
  | turned at_i | finished at_i =>
    have mem := List.mem_of_getElem? at_i
    rw [workers] at mem
    rcases still with rfl | rfl <;> simp at mem

theorem idle_quiet : idle.Quiet :=
  quiet_of_pair rfl (Or.inl rfl) rfl (Or.inl rfl)

/-- The pool after its destructor. -/
def gone : ThreadPool Nat := ⟨[.returned, .returned], [], true, 0, .joining 2⟩

def goneActions : List (Action Nat) :=
  idleActions ++ [.destroy] ++ [.notifyAll] ++ [.turn 0 none] ++ [.turn 1 none] ++ [.join] ++ [.join]

theorem run_gone : Steps Step pair goneActions gone := by
  have returned : Steps Step pair
      (idleActions ++ [.destroy] ++ [.notifyAll] ++ [.turn 0 none] ++ [.turn 1 none])
      ⟨[.returned, .returned], [], true, 0, .joining 0⟩ :=
    .snoc (.snoc (.snoc (.snoc run_idle (.destroying rfl)) (.notifiedAll rfl)) (.turned rfl))
      (.turned rfl)
  exact .snoc (.snoc returned (.joined rfl rfl)) (.joined rfl rfl)

theorem begun_in_order_idle :
    accepted idleActions = begun idleActions ++ idle.queue ∧
      (begun idleActions).Perm (ended idleActions ++ idle.runningTasks) :=
  begun_in_order (n := 2) rfl run_idle

theorem quiet_ended_idle :
    idle.queue = [] ∧ (ended idleActions).Perm (accepted idleActions) :=
  quiet_ended (n := 2) rfl run_idle idle_quiet

/-- The destructor is called while the workers wait, and has joined them in the end. -/
theorem destructor_ends_idle :
    (∀ more p', Steps Step idle.beginDestroy more p' → (∀ action ∈ more, action.internal = true) →
      more.length ≤ idle.beginDestroy.work) ∧
    gone.destroyed ∧ (∀ w ∈ gone.workers, w = .returned) ∧
    (ended goneActions).Perm (accepted goneActions) :=
  ⟨(destructor_ends (n := 2) rfl (run_idle.snoc (.destroying rfl)) rfl).1,
    (destructor_ends (n := 2) rfl run_gone rfl).2
      (quiet_of_pair rfl (Or.inr rfl) rfl (Or.inr rfl))⟩

end FastGraph.ThreadPool
