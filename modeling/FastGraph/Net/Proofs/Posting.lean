import FastGraph.Net.Posting
import Mathlib.Data.Nat.Notation
import Mathlib.Tactic.Cases

/-!
# No posted callback is forgotten

A callback that lies in the queue has a thread that is about to write, or a counter that is not
zero, or a loop that has just emptied the counter and takes the queue next: since the loop empties
the event descriptor before it takes the queue, a thread that pushes in between writes after that.
-/

namespace FastGraph.Posting

variable {T : Type} {s s' : Posting T} {action : Action T} {actions : List (Action T)}

/-! ### What is posted is run -/

/-- What was posted was run, or was taken, or lies in the queue, in this order. -/
def Recorded (actions : List (Action T)) (s : Posting T) : Prop :=
  accepted actions = ran actions ++ s.loop.pending ++ s.posted

theorem accepted_snoc : accepted (actions ++ [action]) = accepted actions ++ action.posts.toList := by
  unfold accepted
  rw [List.filterMap_append]
  cases found : action.posts <;> simp [found]

theorem ran_snoc : ran (actions ++ [action]) = ran actions ++ action.runs.toList := by
  unfold ran
  rw [List.filterMap_append]
  cases found : action.runs <;> simp [found]

theorem Recorded.step (recorded : Recorded actions s) (step : Step s action s') :
    Recorded (actions ++ [action]) s' := by
  unfold Recorded at recorded ⊢
  rw [accepted_snoc, ran_snoc, recorded]
  cases step with
  | pushed cb => simp [Action.posts, Action.runs, push]
  | signalled pushed => simp [Action.posts, Action.runs, signal]
  | woken waits ready => simp [Action.posts, Action.runs, waits, Polling.pending]
  | skipped handles => simp [Action.posts, Action.runs, handles, Polling.pending]
  | drained handles => simp [Action.posts, Action.runs, handles, Polling.pending]
  | swapped empty => simp [Action.posts, Action.runs, empty, Polling.pending, swap]
  | called runs => simp [Action.posts, Action.runs, runs, Polling.pending]
  | done runs => simp [Action.posts, Action.runs, runs, Polling.pending]

/-! ### No wakeup is lost -/

/-- A callback in the queue will be seen, and the loop has been told only of a counter that is not
zero. -/
structure Awake (s : Posting T) : Prop where
  seen : s.posted ≠ [] → 0 < s.writing ∨ 0 < s.counter ∨ s.loop = .drained
  told : s.loop = .handling true → 0 < s.counter

theorem awake_construct : Awake (construct : Posting T) where
  seen some := absurd rfl some
  told handles := by cases handles

theorem signal_counter (s : Posting T) : 0 < s.signal.counter := by
  unfold signal full
  dsimp only
  split <;> omega

/-- Outside of the moment between the read and the swap. -/
theorem Awake.noticed (awake : Awake s) (other : s.loop ≠ .drained) (some : s.posted ≠ []) :
    0 < s.writing ∨ 0 < s.counter := by
  rcases awake.seen some with writes | counts | empty
  · exact Or.inl writes
  · exact Or.inr counts
  · exact absurd empty other

theorem Awake.step (awake : Awake s) (step : Step s action s') : Awake s' := by
  have stays {loop : Polling T} (other : s.loop ≠ .drained) (some : s.posted ≠ []) :
      0 < s.writing ∨ 0 < s.counter ∨ loop = .drained :=
    (awake.noticed other some).imp_right Or.inl
  cases step with
  | pushed cb => exact ⟨fun _ => Or.inl (Nat.succ_pos _), awake.told⟩
  | signalled pushed => exact ⟨fun _ => Or.inr (Or.inl (signal_counter s)), fun _ => signal_counter s⟩
  | woken waits ready =>
    refine ⟨stays (by simp [waits]), ?_⟩
    intro handles
    cases handles
    exact ready rfl
  | skipped handles => exact ⟨stays (by simp [handles]), fun handles => by cases handles⟩
  | drained handles => exact ⟨fun _ => Or.inr (Or.inr rfl), fun handles => by cases handles⟩
  | swapped empty => exact ⟨fun some => absurd rfl some, fun handles => by cases handles⟩
  | called runs => exact ⟨stays (by simp [runs]), fun handles => by cases handles⟩
  | done runs => exact ⟨stays (by simp [runs]), fun handles => by cases handles⟩

/-! ### The work that is left -/

/-- A bound on the steps that the loop and the threads in `post` can take by themselves. -/
def work (s : Posting T) : Nat :=
  6 * s.writing + 5 * min 1 s.counter + s.posted.length +
    match s.loop with
    | .waiting => 1
    | .handling true => 0
    | .handling false => 2
    | .drained => 4
    | .running pending => 3 + pending.length

theorem work_lt (awake : Awake s) (internal : action.internal = true) (step : Step s action s') :
    s'.work < s.work := by
  cases step with
  | pushed cb => cases internal
  | signalled pushed =>
    simp only [work, signal]
    split <;> omega
  | @woken signalled waits ready =>
    cases signalled with
    | false => cases internal
    | true => simp [work, waits]
  | skipped handles => simp [work, handles]
  | drained handles =>
    have counts := awake.told handles
    simp only [work, handles]
    omega
  | swapped empty =>
    simp only [work, empty, swap, List.length_nil]
    omega
  | called runs => simp [work, runs]
  | done runs => simp [work, runs]

/-- Where nothing is left to do, nobody writes, and the loop waits for a counter that is zero. -/
theorem Quiet.still (quiet : s.Quiet) : s.writing = 0 ∧ s.counter = 0 ∧ s.loop = .waiting := by
  have written : s.writing = 0 := by
    by_contra writes
    have := quiet _ _ (.signalled (Nat.pos_of_ne_zero writes))
    cases this
  cases loop : s.loop with
  | waiting =>
    refine ⟨written, ?_, rfl⟩
    by_contra counts
    have := quiet _ _ (@Step.woken T s true loop fun _ => Nat.pos_of_ne_zero counts)
    cases this
  | handling signalled =>
    cases signalled with
    | false => cases quiet _ _ (.skipped loop)
    | true => cases quiet _ _ (.drained loop)
  | drained => cases quiet _ _ (.swapped loop)
  | running pending =>
    cases pending with
    | nil => cases quiet _ _ (.done loop)
    | cons cb pending => cases quiet _ _ (.called loop)

/-- However the threads come in between each other, callbacks are run in the order in which they
were posted, each once. The loop and the threads in `post` can take only so many steps by
themselves, batches without the event descriptor apart, and when they can take no more every
callback that was posted has been run. -/
theorem posted_run (run : Steps Step construct actions s) :
    accepted actions = ran actions ++ s.loop.pending ++ s.posted ∧
      (∀ more s', Steps Step s more s' → (∀ action ∈ more, action.internal = true) →
        more.length ≤ s.work) ∧
      (s.Quiet → accepted actions = ran actions) := by
  have awake : Awake s := run.keeps Awake.step awake_construct
  have recorded : Recorded actions s :=
    run.keeps_history (I := fun _ => True) (fun _ _ => trivial)
      (fun _ recorded step => recorded.step step) trivial
      (show Recorded [] (construct : Posting T) from rfl)
  refine ⟨recorded, ?_, ?_⟩
  · intro more s' steps internal
    have bound := steps.length_le (I := Awake) work Awake.step work_lt awake internal
    omega
  · intro quiet
    obtain ⟨written, counter, waits⟩ := quiet.still
    have taken : s.posted = [] := by
      by_contra some
      have := awake.noticed (by simp [waits]) some
      omega
    rw [Recorded, waits, taken] at recorded
    simpa [Polling.pending] using recorded

/-- Two callbacks are posted, the second one between the read and the swap. -/
theorem posted_run_between :
    Steps Step construct [.push 5, .signal, .wake true, .drain, .push 7, .swap, .call 5, .signal,
      .call 7, .back, .wake true, .drain, .swap, .back] (construct : Posting Nat) ∧
    ([5, 7] : List Nat) = ran [.push 5, .signal, .wake true, .drain, .push 7, .swap, .call 5, .signal,
      .call 7, .back, .wake true, .drain, .swap, .back] := by
  have run : Steps Step construct [.push 5, .signal, .wake true, .drain, .push 7, .swap, .call 5,
      .signal, .call 7, .back, .wake true, .drain, .swap, .back] (construct : Posting Nat) :=
    .snoc (.snoc (.snoc (.snoc (.snoc (.snoc (.snoc (.snoc (.snoc (.snoc (.snoc (.snoc (.snoc (.snoc
      .refl (.pushed 5)) (.signalled (by decide))) (.woken rfl (by decide))) (.drained rfl))
      (.pushed 7)) (.swapped rfl)) (.called rfl)) (.signalled (by decide))) (.called rfl))
      (.done rfl)) (.woken rfl (by decide))) (.drained rfl)) (.swapped rfl)) (.done rfl)
  have quiet : Quiet (construct : Posting Nat) := by
    intro action s' step
    cases step with
    | pushed cb => rfl
    | signalled pushed => cases pushed
    | @woken signalled waits ready =>
      cases signalled with
      | false => rfl
      | true => cases ready rfl
    | skipped handles | drained handles => cases handles
    | swapped empty => cases empty
    | called runs | done runs => cases runs
  exact ⟨run, (posted_run run).2.2 quiet⟩

end FastGraph.Posting
