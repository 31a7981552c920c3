import FastGraph.Index.Proofs.Exposure
import FastGraph.SortedSet.Proofs.Stocked

/-!
# The members of a sorted set

Without NaN scores a set is in step with its table: it has each member once, as many as were
added and not removed, and a removal takes its member out. A member that is added with a NaN
stands in front of the list, where no search for it finds it.
-/

namespace FastGraph.SortedSetEngine
open SkipList WithNan

section
variable {S : Type} [Inhabited S] {e e' : SortedSetEngine S} {key m : Bytes}

omit [Inhabited S] in
theorem standing_append_singleton (key : Bytes) (calls : List (Call S)) (c : Call S) :
    standing key (calls ++ [c]) = stand key (standing key calls) c := by
  rw [standing, List.foldl_append]
  rfl

omit [Inhabited S] in
theorem stand_of_read {c : Call S} {ms : Finset Bytes}
    (noAdd : ∀ key coins score member, c ≠ .zadd key coins score member)
    (noRemove : ∀ key member, c ≠ .zrem key member) : stand key ms c = ms := by
  cases c with
  | zadd key' coins score member => exact absurd rfl (noAdd key' coins score member)
  | zrem key' member => exact absurd rfl (noRemove key' member)
  | _ => rfl

/-- The list of the key has each member once, `ZCARD` counts the members `ms`, and a `ZREM` of one
of them takes it out. -/
structure Tracked [BEq S] [LT S] [DecidableLT S] (e : SortedSetEngine S) (key : Bytes)
    (ms : Finset Bytes) : Prop where
  once : ∃ names, e.members key = some names ∧ names.Nodup
  card : e.zcard key = ms.card
  removes : ∀ m ∈ ms, ∃ e' names, e.zrem key m = some (e', true) ∧ e'.members key = some names ∧
    m ∉ names

theorem members_eq {ts : List (Tower (SkipList.Item S))} (shape : Shape (e.getOrCreate key) ts) :
    e.members key = some ((items ts).map Prod.snd) := by
  rw [members, shape.elements]
  rfl

end

section
variable {E : Type} [LinearOrder E] {e e' : SortedSetEngine (WithNan E)} {key m : Bytes}
  {ms : Finset Bytes} {calls : List (Call (WithNan E))}

/-- The list of the key is graded by numbers, and its members are `ms`. -/
def Sound (e : SortedSetEngine (WithNan E)) (key : Bytes) (ms : Finset Bytes) : Prop :=
  ∃ ts scores ks, Graded num (e.getOrCreate key) ts scores ks ∧ ∀ m, m ∈ ms ↔ (scores m).isSome

theorem sound_empty : Sound (empty : SortedSetEngine (WithNan E)) key ∅ :=
  ⟨[], fun _ => none, [], graded_empty, by simp⟩

/-- A graded list is put in. -/
theorem sound_set {l : SkipList (WithNan E)} {ts : List (Tower (SkipList.Item (WithNan E)))}
    {scores : Bytes → Option E} {ks : List (E ×ₗ Bytes)} (graded : Graded num l ts scores ks)
    (same : ∀ m, m ∈ ms ↔ (scores m).isSome) : Sound ⟨e.sets.set key l⟩ key ms := by
  refine ⟨ts, scores, ks, ?_, same⟩
  rw [getOrCreate_set, if_pos rfl]
  exact graded

/-- Nothing is changed by a list that is put in under another key. -/
theorem Sound.set_ne (sound : Sound e key ms) {key' : Bytes} (other : key' ≠ key)
    (l : SkipList (WithNan E)) : Sound ⟨e.sets.set key' l⟩ key ms := by
  unfold Sound
  rw [getOrCreate_set, if_neg (Ne.symm other)]
  exact sound

omit [LinearOrder E] in
/-- The members of a graded list are those of the places. -/
theorem map_snd_items {ts : List (Tower (SkipList.Item (WithNan E)))} {ks : List (E ×ₗ Bytes)}
    (same : items ts = ks.map (itemAt num)) :
    (items ts).map Prod.snd = ks.map fun k => (ofLex k).2 := by
  rw [same, List.map_map]
  rfl

/-- A member of a sound set is taken out by `ZREM`. -/
theorem Sound.zrem (sound : Sound e key ms) (mem : m ∈ ms) (kept : Kept e) :
    ∃ e', e.zrem key m = some (e', true) ∧ Sound e' key (ms.erase m) := by
  obtain ⟨e', done, removed, -⟩ := kept.zrem key m
  obtain ⟨ts, scores, ks, graded, same⟩ := sound
  obtain ⟨s, scored⟩ := Option.isSome_iff_exists.mp ((same m).mp mem)
  have table := graded.table m
  rw [scored] at table
  rcases zrem_cases removed with ⟨none, -⟩ | ⟨s', l, scored', step, rfl⟩
  · rw [none] at table
    cases table
  · cases scored'.symm.trans table
    obtain ⟨l', ts', done', step', shape', taken⟩ := graded.shape.remove (num s) m
    cases step.symm.trans step'
    obtain ⟨rfl, ks', graded'⟩ := taken.graded faithful_num graded scored shape'
    refine ⟨_, removed, sound_set graded' ?_⟩
    intro m'
    rw [Finset.mem_erase, same]
    by_cases own : m' = m <;> simp [own]

theorem Sound.tracked (sound : Sound e key ms) (kept : Kept e) : Tracked e key ms := by
  have shown {e : SortedSetEngine (WithNan E)} {ms : Finset Bytes} (sound : Sound e key ms) :
      ∃ names, e.members key = some names ∧ names.Nodup ∧ ms = names.toFinset ∧
        e.zcard key = names.length := by
    obtain ⟨ts, scores, ks, graded, same⟩ := sound
    refine ⟨_, members_eq graded.shape, ?_, ?_, ?_⟩
    · rw [map_snd_items graded.items]
      exact graded.inStep.nodup
    · ext m
      rw [List.mem_toFinset, map_snd_items graded.items, graded.inStep.mem_members, same]
    · rw [zcard_eq, graded.shape.size]
      simp [items]
  obtain ⟨names, listed, distinct, rfl, size⟩ := shown sound
  refine ⟨⟨names, listed, distinct⟩, ?_, ?_⟩
  · rw [size, List.toFinset_card_of_nodup distinct]
  · intro m mem
    obtain ⟨e', removed, sound'⟩ := sound.zrem mem kept
    obtain ⟨names', listed', -, left, -⟩ := shown sound'
    refine ⟨e', names', removed, listed', ?_⟩
    rw [← List.mem_toFinset, ← left]
    exact Finset.notMem_erase m _

/-- An element is inserted with a number as its score. -/
theorem Sound.insert (sound : Sound e key ms) {coins : List Bool} {s : E}
    {l : SkipList (WithNan E)} (step : (e.getOrCreate key).insert coins (num s) m = some l) :
    Sound ⟨e.sets.set key l⟩ key (insert m ms) := by
  obtain ⟨ts, scores, ks, graded, same⟩ := sound
  obtain ⟨l', ts', step', shape', inserted⟩ := graded.shape.insert coins (num s) m
  cases step.symm.trans step'
  obtain ⟨ks', graded'⟩ := inserted.graded faithful_num graded shape'
  refine sound_set graded' ?_
  intro m'
  rw [Finset.mem_insert, same]
  by_cases here : m' = m <;> simp [here]

/-- A member that is not in a sound set is not looked for. -/
theorem Sound.zrem_of_notMem (sound : Sound e key ms) (mem : m ∉ ms) :
    e.zrem key m = some (e, false) := by
  obtain ⟨ts, scores, ks, graded, same⟩ := sound
  refine zrem_of_none ?_
  rw [graded.table, Option.not_isSome_iff_eq_none.mp fun some => mem ((same m).mpr some)]
  rfl

/-- A call that adds no NaN to the key keeps its set sound. -/
theorem Sound.call (sound : Sound e key ms) (kept : Kept e) {c : Call (WithNan E)}
    {reply : Reply (WithNan E)} (clean : ∀ coins m, c ≠ .zadd key coins nan m)
    (called : e.call c = some (e', reply)) : Sound e' key (stand key ms c) := by
  rcases call_cases called with ⟨key', coins, score, member, n, rfl, added⟩ |
    ⟨key', member, done, rfl, removed⟩ | ⟨noAdd, noRemove, rfl⟩
  · obtain ⟨l, step, same⟩ := Option.bind_eq_some_iff.mp added
    cases same
    by_cases own : key' = key
    · subst own
      rw [stand, if_pos rfl]
      cases score with
      | nan => exact absurd rfl (clean coins member)
      | num s => exact sound.insert step
    · rw [stand, if_neg own]
      exact sound.set_ne own l
  · by_cases own : key' = key
    · subst own
      rw [stand, if_pos rfl]
      by_cases mem : member ∈ ms
      · obtain ⟨e₂, removed', sound'⟩ := sound.zrem mem kept
        cases removed.symm.trans removed'
        exact sound'
      · cases removed.symm.trans (sound.zrem_of_notMem mem)
        rwa [Finset.erase_eq_of_notMem mem]
    · rw [stand, if_neg own]
      rcases zrem_cases removed with ⟨-, rfl, -⟩ | ⟨s, l, -, -, rfl⟩
      · exact sound
      · exact sound.set_ne own l
  · rwa [stand_of_read noAdd noRemove]

/-- So does a run of such calls. -/
theorem sound_after (key : Bytes) (calls : List (Call (WithNan E)))
    (clean : ∀ coins m, Call.zadd key coins nan m ∉ calls) :
    ∃ e, after calls empty = some e ∧ Kept e ∧ Sound e key (standing key calls) := by
  induction calls using List.reverseRecOn with
  | nil => exact ⟨empty, rfl, kept_empty, sound_empty⟩
  | append_singleton calls c ih =>
    obtain ⟨e, ran, kept, sound⟩ := ih fun coins m mem => clean coins m (by simp [mem])
    obtain ⟨e', reply, called, kept'⟩ := kept.returns c
    have last : ∀ coins m, c ≠ .zadd key coins nan m := by
      rintro coins m rfl
      exact clean coins m (by simp)
    refine ⟨e', ?_, kept', ?_⟩
    · rw [after, List.foldlM_append, ← after, ran]
      simp [called]
    · rw [standing_append_singleton]
      exact sound.call kept last called

/-- A member that is added with a NaN is not taken out. -/
theorem zrem_of_nan (kept : Kept e) {coins : List Bool} {n : Int}
    (added : e.zadd key coins nan m = some (e', n)) : ∃ e'', e'.zrem key m = some (e'', false) := by
  obtain ⟨ts, stocked⟩ := kept key
  obtain ⟨l, step, same⟩ := Option.bind_eq_some_iff.mp added
  cases same
  obtain ⟨l', ts', step', shape', inserted⟩ := stocked.shape.insert coins nan m
  cases step.symm.trans step'
  have scored : l.scoreOf m = some nan := by
    cases inserted with
    | present split cut here =>
      simp [isAtItem] at here
    | fresh _ _ _ _ _ _ scores => rw [scoreOf, scores, UnorderedMap.find_set_self]
    | moved _ _ _ _ _ _ _ _ _ _ scores => rw [scoreOf, scores, UnorderedMap.find_set_self]
  obtain ⟨e₁, n₁, added', kept'⟩ := kept.zadd key coins nan m
  cases added.symm.trans added'
  obtain ⟨e'', done, removed, -⟩ := kept'.zrem key m
  refine ⟨e'', ?_⟩
  rcases zrem_cases removed with ⟨-, -, rfl⟩ | ⟨s, l', scored', step₁, -⟩
  · exact removed
  · rw [getOrCreate_set, if_pos rfl] at scored' step₁
    cases scored.symm.trans scored'
    obtain ⟨l₂, ts₂, done₂, step₂, -, taken⟩ := shape'.remove nan m
    cases step₁.symm.trans step₂
    cases taken with
    | absent => exact removed
    | present split cut here => simp [isAtItem] at here

/-- At every moment of a run the set of a key has each member once, counts the members that were
added and not removed and gives them up, if and only if no NaN is added to the key. -/
theorem members_tracked_iff (calls : List (Call (WithNan E))) (key : Bytes) :
    (∀ past rest, calls = past ++ rest →
      ∃ e, after past empty = some e ∧ Tracked e key (standing key past)) ↔
      ∀ coins member, Call.zadd key coins nan member ∉ calls := by
  constructor
  · intro tracked coins m mem
    obtain ⟨past, rest, rfl⟩ := List.append_of_mem mem
    obtain ⟨e', ran, held⟩ := tracked (past ++ [.zadd key coins nan m]) rest (by simp)
    rw [after, List.foldlM_append] at ran
    obtain ⟨e, before, last⟩ := Option.bind_eq_some_iff.mp ran
    have kept : Kept e := kept_empty.after past before
    rw [List.foldlM_cons] at last
    obtain ⟨e₁, step, same⟩ := Option.bind_eq_some_iff.mp last
    cases same
    obtain ⟨⟨e₂, reply⟩, called, same⟩ := Option.map_eq_some_iff.mp step
    cases same
    obtain ⟨⟨e₃, n⟩, added, same⟩ := Option.bind_eq_some_iff.mp called
    cases same
    obtain ⟨e'', failed⟩ := zrem_of_nan kept added
    obtain ⟨_, _, taken, -⟩ := held.removes m (by
      rw [standing_append_singleton, stand, if_pos rfl]
      exact Finset.mem_insert_self m _)
    cases failed.symm.trans taken
  · rintro clean past rest rfl
    obtain ⟨e, ran, kept, sound⟩ := sound_after key past fun coins m mem =>
      clean coins m (List.mem_append_left rest mem)
    exact ⟨e, ran, sound.tracked kept⟩

end

/-- A member that is added twice with a NaN stands in the list twice. -/
theorem nan_added_twice : ¬ ∀ past rest,
    [Call.zadd (str "z") [] (nan : WithNan Int) (str "a"), .zadd (str "z") [] nan (str "a")] =
      past ++ rest →
    ∃ e, after past empty = some e ∧ Tracked e (str "z") (standing (str "z") past) := by
  intro tracked
  obtain ⟨e, ran, held⟩ := tracked _ [] (List.append_nil _).symm
  obtain ⟨names, listed, distinct⟩ := held.once
  have twice : ∃ e, after [Call.zadd (str "z") [] (nan : WithNan Int) (str "a"),
      .zadd (str "z") [] nan (str "a")] empty = some e ∧
      e.members (str "z") = some [str "a", str "a"] := ⟨_, rfl, rfl⟩
  obtain ⟨e', ran', listed'⟩ := twice
  cases ran.symm.trans ran'
  cases listed.symm.trans listed'
  simp at distinct

end FastGraph.SortedSetEngine
