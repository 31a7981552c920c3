import FastGraph.Persistence.Writers

/-!
# When two write the same snapshot

`bgsave` tests the flag and `save` does not, so a snapshot that takes longer than the interval of
the timer meets the next one on its temporary file. The flag guards the file in a run exactly
as long as every `save` begins with the flag clear.
-/

namespace FastGraph.Writers

section
variable {s s' : Writers} {event : Event}

/-- A save that returns has set the flag and cleared it. -/
theorem save_eq {W D : Type} {bits : W ≃ UInt32} {p : Persistence} {disk : Disk} {kv : KVEngine}
    {graph : GraphEngine W D} {now : Int} {nodeOrder edgeOrder : IterOrder} {calls : RDB.SaveCalls}
    {ok : Bool}
    (returned : (p.save bits disk kv graph now nodeOrder edgeOrder calls).2.2 = .ok ok) :
    (p.save bits disk kv graph now nodeOrder edgeOrder calls).1 = p.saveBegins.saveEnds := by
  unfold Persistence.save at returned ⊢
  split at returned
  · rfl
  · cases returned

/-- At most one writer is at work, and only with the flag set. -/
def Exclusive (s : Writers) : Prop :=
  s.active ≤ 1 ∧ (0 < s.active → s.persistence.saving = true)

/-- The flag says whether the one writer is at work. -/
structure Guarded (s : Writers) : Prop where
  single : s.active ≤ 1
  flag : s.persistence.saving = true ↔ 0 < s.active

/-- The flag is clear if a `save` begins. -/
def Tested (s : Writers) : Event → Prop
  | .saveBegins _ => s.persistence.saving = false
  | _ => True

theorem guarded_atStart (path : Bytes) : Guarded (atStart path) :=
  ⟨Nat.zero_le 1, by simp [atStart, active]⟩

theorem Guarded.exclusive (guarded : Guarded s) : Exclusive s :=
  ⟨guarded.single, guarded.flag.mpr⟩

/-- A tested step keeps the flag in its role. -/
theorem Guarded.step (guarded : Guarded s) (tested : Tested s event)
    (taken : s.step event = some s') : Guarded s' := by
  obtain ⟨single, flag⟩ := guarded
  unfold active at single flag
  cases event with
  | saveBegins opened =>
    have idle : ¬ 0 < s.threads + s.children := by
      rw [← flag, tested]
      exact Bool.false_ne_true
    cases opened with
    | false =>
      cases taken
      exact ⟨single, iff_of_false Bool.false_ne_true idle⟩
    | true =>
      cases taken
      refine ⟨?_, iff_of_true rfl ?_⟩
      · change s.threads + 1 + s.children ≤ 1
        omega
      · change 0 < s.threads + 1 + s.children
        omega
  | saveEnds =>
    simp only [Writers.step] at taken
    split at taken
    · cases taken
    · cases taken
      refine ⟨?_, iff_of_false Bool.false_ne_true ?_⟩
      · change s.threads - 1 + s.children ≤ 1
        omega
      · change ¬ 0 < s.threads - 1 + s.children
        omega
  | bgsave forked =>
    simp only [Writers.step, Persistence.bgsave] at taken
    cases busy : s.persistence.saving with
    | true =>
      rw [busy] at taken
      cases taken
      exact ⟨single, flag⟩
    | false =>
      have idle : ¬ 0 < s.threads + s.children := by
        rw [← flag, busy]
        exact Bool.false_ne_true
      rw [busy] at taken
      cases forked with
      | false =>
        cases taken
        exact ⟨single, flag⟩
      | true =>
        cases taken
        refine ⟨?_, iff_of_true rfl ?_⟩
        · change s.threads + (s.children + 1) ≤ 1
          omega
        · change 0 < s.threads + (s.children + 1)
          omega
  | childEnds =>
    simp only [Writers.step] at taken
    split at taken
    · cases taken
    · cases taken
      refine ⟨?_, iff_of_false Bool.false_ne_true ?_⟩
      · change s.threads + (s.children - 1) ≤ 1
        omega
      · change ¬ 0 < s.threads + (s.children - 1)
        omega

/-- A `save` that begins while the flag is set makes a second writer, or clears the flag of the
first. -/
theorem Guarded.tested (guarded : Guarded s) (taken : s.step event = some s')
    (exclusive : Exclusive s') : Tested s event := by
  cases event with
  | saveBegins opened =>
    by_contra busy
    have working : 0 < s.active := guarded.flag.mp (by simpa [Tested] using busy)
    cases opened with
    | false =>
      cases taken
      exact Bool.false_ne_true (exclusive.2 working)
    | true =>
      cases taken
      have two : s.threads + 1 + s.children ≤ 1 := exclusive.1
      unfold active at working
      omega
  | saveEnds => trivial
  | bgsave forked => trivial
  | childEnds => trivial

/-- Every state of the run has at most one writer, and none without the flag. -/
def AlwaysExclusive (events : List Event) (s : Writers) : Prop :=
  ∀ before, before <+: events → ∀ s', run before s = some s' → Exclusive s'

/-- Every `save` of the run begins with the flag clear. -/
def AlwaysTested (events : List Event) (s : Writers) : Prop :=
  ∀ before event, before ++ [event] <+: events → ∀ s', run before s = some s' → Tested s' event

theorem alwaysExclusive_cons {events : List Event} (taken : s.step event = some s') :
    AlwaysExclusive (event :: events) s ↔ Exclusive s ∧ AlwaysExclusive events s' := by
  constructor
  · intro always
    refine ⟨always [] (List.nil_prefix) s rfl, ?_⟩
    intro before isPrefix s'' ran
    apply always (event :: before) (List.cons_prefix_cons.mpr ⟨rfl, isPrefix⟩)
    rw [run, taken]
    exact ran
  · intro ⟨now, later⟩ before isPrefix s'' ran
    cases before with
    | nil =>
      cases ran
      exact now
    | cons first before =>
      obtain ⟨rfl, rest⟩ := List.cons_prefix_cons.mp isPrefix
      rw [run, taken] at ran
      exact later before rest s'' ran

theorem alwaysTested_cons {events : List Event} (taken : s.step event = some s') :
    AlwaysTested (event :: events) s ↔ Tested s event ∧ AlwaysTested events s' := by
  constructor
  · intro always
    refine ⟨always [] event (List.cons_prefix_cons.mpr ⟨rfl, List.nil_prefix⟩) s rfl, ?_⟩
    intro before next isPrefix s'' ran
    apply always (event :: before) next (List.cons_prefix_cons.mpr ⟨rfl, isPrefix⟩)
    rw [run, taken]
    exact ran
  · intro ⟨now, later⟩ before next isPrefix s'' ran
    cases before with
    | nil =>
      cases ran
      rw [List.nil_append] at isPrefix
      rw [(List.cons_prefix_cons.mp isPrefix).1]
      exact now
    | cons first before =>
      obtain ⟨rfl, rest⟩ := List.cons_prefix_cons.mp isPrefix
      rw [run, taken] at ran
      exact later before next rest s'' ran

/-- From a guarded state the flag guards the file exactly as long as `save` tests it. -/
theorem Guarded.always_iff {events : List Event} {last : Writers} (guarded : Guarded s)
    (ran : run events s = some last) : AlwaysExclusive events s ↔ AlwaysTested events s := by
  induction events generalizing s with
  | nil =>
    constructor
    · intro _ before event isPrefix
      cases List.append_ne_nil_of_right_ne_nil before (List.cons_ne_nil event []) (List.prefix_nil.mp isPrefix)
    · intro _ before isPrefix s' ran
      rw [List.prefix_nil.mp isPrefix] at ran
      cases ran
      exact guarded.exclusive
  | cons event events ih =>
    simp only [run, Option.bind_eq_bind, Option.bind_eq_some_iff] at ran
    obtain ⟨s', taken, rest⟩ := ran
    rw [alwaysExclusive_cons taken, alwaysTested_cons taken]
    constructor
    · intro ⟨_, later⟩
      have tested := guarded.tested taken (later [] List.nil_prefix s' rfl)
      exact ⟨tested, (ih (guarded.step tested taken) rest).mp later⟩
    · intro ⟨tested, later⟩
      exact ⟨guarded.exclusive, (ih (guarded.step tested taken) rest).mpr later⟩

/-- In a run of the server at most one snapshot writer is at work at any time, and only with the
flag set, if and only if every `save` begins with the flag clear. -/
theorem alwaysExclusive_iff (path : Bytes) (events : List Event) {last : Writers}
    (ran : run events (atStart path) = some last) :
    AlwaysExclusive events (atStart path) ↔ AlwaysTested events (atStart path) :=
  (guarded_atStart path).always_iff ran

/-- A child writes, and then a `save` of the timer. -/
theorem alwaysExclusive_iff_turns :
    AlwaysExclusive [.bgsave true, .childEnds, .saveBegins true, .saveEnds] (atStart (str "dump.rdb")) ↔
      AlwaysTested [.bgsave true, .childEnds, .saveBegins true, .saveEnds] (atStart (str "dump.rdb")) :=
  alwaysExclusive_iff (str "dump.rdb") _ rfl

/-- The timer starts a save while a child is still writing: there are two writers, and the end of
the save clears the flag of the child. -/
theorem save_during_bgsave :
    ∃ both one, run [.bgsave true, .saveBegins true] (atStart (str "dump.rdb")) = some both ∧
      run [.bgsave true, .saveBegins true, .saveEnds] (atStart (str "dump.rdb")) = some one ∧
      both.active = 2 ∧ one.active = 1 ∧ one.persistence.saving = false ∧
      ¬ AlwaysExclusive [.bgsave true, .saveBegins true, .saveEnds] (atStart (str "dump.rdb")) := by
  refine ⟨_, _, rfl, rfl, rfl, rfl, rfl, ?_⟩
  intro always
  have single := (always _ List.prefix_rfl _ rfl).2 (by decide)
  exact Bool.false_ne_true single

end

end FastGraph.Writers
