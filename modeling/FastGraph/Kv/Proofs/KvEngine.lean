import FastGraph.Kv.KvEngine
import FastGraph.Kv.Proofs.Hashmap
import FastGraph.Kv.Proofs.Ttl
import FastGraph.Misc.ExpiringMap

/-!
# The engine is a map whose entries expire

`Represents e A` relates an engine to the abstract map it holds. Every call on an engine
answers as the call on the abstract map does and leaves the two related, so what holds of
every run of the abstract map holds of every run of the engine.
-/

namespace FastGraph.KVEngine
open RobinHoodMap TTLManager

/-- The engine holds the abstract map `A`. -/
structure Represents (e : KVEngine) (A : ExpiringMap Bytes Bytes) : Prop where
  map : e.map.WellFormed
  deadlines : e.deadlines.WellFormed
  value : ∀ k v, Binds e.map k v ↔ A.value k = some v
  deadline : ∀ k d, Holds e.deadlines k d ↔ A.deadline k = some d

section
variable {e e' : KVEngine} {A : ExpiringMap Bytes Bytes} {m : RobinHoodMap} {t : TTLManager}
  {k key val : Bytes} {v : Option Bytes} {d ttlMs now : Int}

theorem represents_empty : Represents empty .empty where
  map := RobinHoodMap.wellFormed_empty.1
  deadlines := TTLManager.wellFormed_empty
  value k v := iff_of_false (RobinHoodMap.wellFormed_empty.2 k v) nofun
  deadline _ _ := iff_of_false not_holds_empty nofun

/-! ### Reading the parts -/

/-- What `map_.get` finds is the abstract value. -/
theorem Represents.get_map (rep : Represents e A) (key : Bytes) :
    e.map.get key = some (A.value key) := by
  obtain ⟨r, step, found⟩ := get_spec rep.map key
  rw [step]
  congr 1
  apply Option.ext
  intro v
  rw [found, rep.value]

/-- What `get_expiry` finds is the abstract deadline. -/
theorem Represents.getExpiry (rep : Represents e A) (key : Bytes) :
    e.deadlines.getExpiry key = (A.deadline key).getD (-1) := by
  cases found : A.deadline key with
  | none =>
    apply rep.deadlines.indexed.getExpiry_none
    intro d held
    rw [rep.deadline, found] at held
    cases held
  | some d => exact rep.deadlines.indexed.getExpiry_eq ((rep.deadline key d).mpr found)

/-- The lazy check of `get` finds the keys whose deadline has been reached. -/
theorem Represents.reached_iff (rep : Represents e A) :
    (0 ≤ e.deadlines.getExpiry key ∧ e.deadlines.getExpiry key ≤ now) ↔
      A.reached key now = true := by
  rw [rep.getExpiry, ExpiringMap.reached]
  cases A.deadline key <;> simp

/-- Taking a key out of the table. -/
theorem Represents.del_map (rep : Represents e A) (key : Bytes) :
    ∃ m, e.map.del key = some (m, (A.value key).isSome) ∧ m.WellFormed ∧
      ∀ k v, Binds m k v ↔ k ≠ key ∧ A.value k = some v := by
  obtain ⟨m, deleted, step, wf, wasThere, -, binds⟩ := del_spec rep.map key
  have flag : deleted = (A.value key).isSome := by
    rw [Bool.eq_iff_iff, wasThere, Option.isSome_iff_exists]
    simp only [rep.value]
  refine ⟨m, by rw [step, flag], wf, ?_⟩
  intro k v
  rw [binds, rep.value]

/-! ### One lemma for each call -/

theorem set_spec (rep : Represents e A) (key val : Bytes) (ttlMs now : Int) :
    ∃ e', e.set key val ttlMs now = some (e', (A.value key).isNone) ∧
      Represents e'
        (A.put key val (if 0 < ttlMs then some (toInt64 (now + ttlMs)) else none)) := by
  obtain ⟨m, inserted, step, wf, isNew, -, binds⟩ := RobinHoodMap.set_spec rep.map key val
  have flag : inserted = (A.value key).isNone := by
    rw [Bool.eq_iff_iff, isNew, Option.isNone_iff_eq_none, Option.eq_none_iff_forall_ne_some]
    simp only [rep.value, ne_eq]
  have value : ∀ d k v, Binds m k v ↔ (A.put key val d).value k = some v := by
    intro d k v
    rw [binds]
    by_cases same : k = key
    · simp [ExpiringMap.put, same, eq_comm]
    · simp [ExpiringMap.put, same, rep.value]
  simp only [set, step, flag, Option.bind_eq_bind, Option.bind_some]
  by_cases positive : 0 < ttlMs
  · obtain ⟨wfT, holds⟩ := setExpiry_spec rep.deadlines key ttlMs now
    rw [if_pos positive]
    refine ⟨_, rfl, wf, wfT, value _, ?_⟩
    intro k d
    rw [holds, if_pos positive]
    by_cases same : k = key
    · simp [ExpiringMap.put, same, eq_comm]
    · simp [ExpiringMap.put, same, rep.deadline]
  · obtain ⟨wfT, holds, -⟩ := removeExpiry_spec rep.deadlines key
    rw [if_neg positive]
    refine ⟨_, rfl, wf, wfT, value _, ?_⟩
    intro k d
    rw [holds, if_neg positive]
    by_cases same : k = key
    · simp [ExpiringMap.put, same]
    · simp [ExpiringMap.put, same, rep.deadline]

/-- Taking a key out of both parts. -/
theorem Represents.dropped (rep : Represents e A) (wf : m.WellFormed)
    (binds : ∀ k v, Binds m k v ↔ k ≠ key ∧ A.value k = some v) :
    Represents ⟨m, e.deadlines.removeExpiry key⟩ (A.drop key) := by
  obtain ⟨wfT, holds, -⟩ := removeExpiry_spec rep.deadlines key
  refine ⟨wf, wfT, ?_, ?_⟩
  · intro k v
    rw [binds]
    by_cases same : k = key
    · simp [ExpiringMap.drop, same]
    · simp [ExpiringMap.drop, same]
  · intro k d
    rw [holds, rep.deadline]
    by_cases same : k = key
    · simp [ExpiringMap.drop, same]
    · simp [ExpiringMap.drop, same]

theorem get_spec (rep : Represents e A) (key : Bytes) (now : Int) :
    ∃ e', e.get key now = some (e', A.read key now) ∧ Represents e' (A.look key now) := by
  unfold get ExpiringMap.read ExpiringMap.look
  simp only [rep.reached_iff]
  by_cases due : A.reached key now = true
  · obtain ⟨m, step, wf, binds⟩ := rep.del_map key
    simp only [if_pos due, step]
    exact ⟨_, rfl, rep.dropped wf binds⟩
  · simp only [if_neg due, rep.get_map]
    exact ⟨e, rfl, rep⟩

theorem del_spec (rep : Represents e A) (key : Bytes) :
    ∃ e', e.del key = some (e', (A.value key).isSome) ∧ Represents e' (A.drop key) := by
  obtain ⟨m, step, wf, binds⟩ := rep.del_map key
  exact ⟨_, by simp [del, step], rep.dropped wf binds⟩

theorem existsKey_spec (rep : Represents e A) (key : Bytes) (now : Int) :
    ∃ e', e.existsKey key now = some (e', (A.read key now).isSome) ∧
      Represents e' (A.look key now) := by
  obtain ⟨e', step, rep'⟩ := get_spec rep key now
  exact ⟨e', by simp [existsKey, step], rep'⟩

/-- What `expire` does to the abstract map. -/
def idealExpire (A : ExpiringMap Bytes Bytes) (key : Bytes) (ttlMs now : Int) :
    ExpiringMap Bytes Bytes :=
  if (A.value key).isSome then A.rearm key (some (toInt64 (now + ttlMs))) else A

theorem expire_spec (rep : Represents e A) (key : Bytes) (ttlMs now : Int) :
    ∃ e', e.expire key ttlMs now = some (e', (A.value key).isSome) ∧
      Represents e' (idealExpire A key ttlMs now) := by
  unfold expire idealExpire
  rw [rep.get_map]
  cases found : A.value key with
  | none => exact ⟨e, rfl, rep⟩
  | some v =>
    obtain ⟨wfT, holds⟩ := setExpiry_spec rep.deadlines key ttlMs now
    refine ⟨_, rfl, rep.map, wfT, rep.value, ?_⟩
    intro k d
    rw [holds]
    by_cases same : k = key
    · simp [ExpiringMap.rearm, same, eq_comm]
    · simp [ExpiringMap.rearm, same, rep.deadline]

/-- What `persist` does to the abstract map. -/
def idealPersist (A : ExpiringMap Bytes Bytes) (key : Bytes) : ExpiringMap Bytes Bytes :=
  if (A.deadline key).getD (-1) < 0 then A else A.rearm key none

theorem persist_spec (rep : Represents e A) (key : Bytes) :
    Represents (e.persist key).1 (idealPersist A key) ∧
      (e.persist key).2 = decide (0 ≤ (A.deadline key).getD (-1)) := by
  unfold persist idealPersist
  rw [rep.getExpiry]
  by_cases unarmed : (A.deadline key).getD (-1) < 0
  · rw [if_pos unarmed, if_pos unarmed]
    exact ⟨rep, by simpa using unarmed⟩
  · rw [if_neg unarmed, if_neg unarmed]
    obtain ⟨wfT, holds, -⟩ := removeExpiry_spec rep.deadlines key
    refine ⟨⟨rep.map, wfT, rep.value, ?_⟩, by simpa using unarmed⟩
    intro k d
    rw [holds, rep.deadline]
    by_cases same : k = key
    · simp [ExpiringMap.rearm, same]
    · simp [ExpiringMap.rearm, same]

/-- What `ttl` reports of the abstract map. -/
def idealTtl (A : ExpiringMap Bytes Bytes) (key : Bytes) (now : Int) : Int :=
  if (A.value key).isNone then -2
  else if (A.deadline key).getD (-1) < 0 then -1
  else max 0 ((A.deadline key).getD (-1) - now)

theorem ttl_spec (rep : Represents e A) (key : Bytes) (now : Int) :
    e.ttl key now = some (idealTtl A key now) := by
  unfold ttl idealTtl
  rw [rep.get_map, rep.getExpiry]
  cases A.value key with
  | none => rfl
  | some v =>
    simp only [Option.bind_eq_bind, Option.bind_some, Option.isNone_some, Bool.false_eq_true,
      if_false]
    split
    · rfl
    · congr 1
      omega

/-- `map_.del` of a list of keys. -/
theorem dropAll_spec (keys : List Bytes) (wf : m.WellFormed) :
    ∃ m', dropAll keys m = some m' ∧ m'.WellFormed ∧
      ∀ k v, Binds m' k v ↔ k ∉ keys ∧ Binds m k v := by
  induction keys generalizing m with
  | nil => exact ⟨m, rfl, wf, by simp⟩
  | cons key keys ih =>
    obtain ⟨m₁, deleted, step, wf₁, -, -, binds₁⟩ := RobinHoodMap.del_spec wf key
    obtain ⟨m', rest, wf', binds'⟩ := ih wf₁
    refine ⟨m', by simp [dropAll, step, rest], wf', ?_⟩
    intro k v
    rw [binds', binds₁, List.mem_cons]
    tauto

theorem tick_spec (rep : Represents e A) (now : Int) :
    ∃ e', e.tick now = some e' ∧ Represents e' (A.sweep now) := by
  obtain ⟨wfT, holds, evicted⟩ := evictExpired_spec rep.deadlines now
  obtain ⟨m, run, wf, binds⟩ := dropAll_spec (e.deadlines.evictExpired now).2 rep.map
  refine ⟨⟨m, (e.deadlines.evictExpired now).1⟩, by simp [tick, run], wf, wfT, ?_, ?_⟩
  · intro k v
    rw [binds, evicted, rep.value]
    simp only [rep.deadline]
    by_cases due : ∃ d, A.deadline k = some d ∧ d ≤ now
    · simp [due, (ExpiringMap.value_sweep_of_due due).1]
    · simp [due, (ExpiringMap.value_sweep_of_not_due due).1]
  · intro k d
    rw [holds, rep.deadline]
    simp [ExpiringMap.sweep, Option.filter_eq_some_iff]

/-! ### all_entries -/

/-- What is listed of a slot is what the slot holds, unless the deadline has been reached. -/
theorem listed_eq_some {i : Nat} {v : Bytes} {d : Int} :
    e.listed now i = some (k, v, d) ↔
      (slot e.map.entries i).empty = false ∧ (slot e.map.entries i).key = k ∧
        (slot e.map.entries i).val = v ∧ e.deadlines.getExpiry k = d ∧ ¬ (0 ≤ d ∧ d ≤ now) := by
  by_cases free : (slot e.map.entries i).empty = true
  · simp [listed, free]
  · by_cases due : 0 ≤ e.deadlines.getExpiry (slot e.map.entries i).key ∧
        e.deadlines.getExpiry (slot e.map.entries i).key ≤ now
    · simp only [listed, free, due, and_self, if_true, if_false, reduceCtorEq, false_iff]
      intro ⟨_, key, _, deadline, alive⟩
      rw [← deadline, ← key] at alive
      exact alive due
    · have here : e.listed now i = some ((slot e.map.entries i).key, (slot e.map.entries i).val,
          e.deadlines.getExpiry (slot e.map.entries i).key) := by
        simp only [listed]
        rw [if_neg free, if_neg due]
      simp only [here, Option.some.injEq, Prod.mk.injEq]
      constructor
      · intro ⟨key, val, deadline⟩
        rw [← deadline, ← key]
        exact ⟨by simpa using free, rfl, val, rfl, due⟩
      · intro ⟨_, key, val, deadline, _⟩
        exact ⟨key, val, by rw [key, deadline]⟩

/-- `all_entries` lists every key once, with its value and its deadline, unless its deadline
has been reached. -/
theorem allEntries_spec (rep : Represents e A) (now : Int) :
    ((e.allEntries now).map Prod.fst).Nodup ∧
      ∀ k v d, (k, v, d) ∈ e.allEntries now ↔
        A.value k = some v ∧ A.reached k now = false ∧ (A.deadline k).getD (-1) = d := by
  have slots := rep.map.slots
  constructor
  · rw [allEntries, List.map_filterMap]
    apply List.Nodup.filterMap _ List.nodup_range
    intro i j k here there
    obtain ⟨⟨_, v, d⟩, listed_i, rfl⟩ := Option.map_eq_some_iff.mp here
    obtain ⟨⟨_, v', d'⟩, listed_j, same⟩ := Option.map_eq_some_iff.mp there
    obtain ⟨occupied_i, key_i, -⟩ := listed_eq_some.mp listed_i
    obtain ⟨occupied_j, key_j, -⟩ := listed_eq_some.mp listed_j
    exact slots.distinct i j _ _ (rep.map.probed.occupied_lt occupied_i)
      (rep.map.probed.occupied_lt occupied_j) (view_of_occupied occupied_i) (view_of_occupied occupied_j)
      (key_i.trans (same.symm.trans key_j.symm))
  · intro k v d
    have alive : (¬ (0 ≤ e.deadlines.getExpiry k ∧ e.deadlines.getExpiry k ≤ now)) ↔
        A.reached k now = false := by
      rw [rep.reached_iff, Bool.not_eq_true]
    rw [allEntries, List.mem_filterMap, ← rep.value, ← alive, ← rep.getExpiry]
    constructor
    · intro ⟨i, inside, entry⟩
      obtain ⟨occupied, rfl, rfl, rfl, live⟩ := listed_eq_some.mp entry
      have held : RobinHood.Has e.map.capacity (view e.map.entries) (slot e.map.entries i).item :=
        ⟨i, _, List.mem_range.mp inside, view_of_occupied occupied, rfl⟩
      exact ⟨(rep.map.probed.has_iff.mp held).2, live, rfl⟩
    · intro ⟨⟨i, c, inside, at_i, item⟩, live, deadline⟩
      obtain ⟨occupied, -, same⟩ := occupied_of_view at_i
      rw [item] at same
      refine ⟨i, List.mem_range.mpr inside, listed_eq_some.mpr ⟨occupied, ?_, ?_, deadline, ?_⟩⟩
      · exact congrArg Item.key same
      · exact congrArg Item.val same
      · rwa [deadline] at live

/-! ### Runs -/

/-- A call on the abstract map. -/
def idealCall (A : ExpiringMap Bytes Bytes) (now : Int) : Call → ExpiringMap Bytes Bytes × Reply
  | .set key val ttlMs =>
    (A.put key val (if 0 < ttlMs then some (toInt64 (now + ttlMs)) else none),
      .flag (A.value key).isNone)
  | .get key => (A.look key now, .value (A.read key now))
  | .del key => (A.drop key, .flag (A.value key).isSome)
  | .existsKey key => (A.look key now, .flag (A.read key now).isSome)
  | .expire key ttlMs => (idealExpire A key ttlMs now, .flag (A.value key).isSome)
  | .persist key => (idealPersist A key, .flag (decide (0 ≤ (A.deadline key).getD (-1))))
  | .ttl key => (A, .ms (idealTtl A key now))
  | .tick => (A.sweep now, .none)

/-- The abstract map after a sequence of calls. -/
def idealRun : List Timed → ExpiringMap Bytes Bytes → ExpiringMap Bytes Bytes
  | [], A => A
  | c :: cs, A => idealRun cs (idealCall A c.now c.call).1

/-- One call answers as the abstract map does and leaves the two related. -/
theorem call_refines (rep : Represents e A) (now : Int) (c : Call) :
    ∃ e', e.call now c = some (e', (idealCall A now c).2) ∧
      Represents e' (idealCall A now c).1 := by
  cases c with
  | set key val ttlMs =>
    obtain ⟨e', step, rep'⟩ := set_spec rep key val ttlMs now
    exact ⟨e', by simp [call, step, idealCall], rep'⟩
  | get key =>
    obtain ⟨e', step, rep'⟩ := get_spec rep key now
    exact ⟨e', by simp [call, step, idealCall], rep'⟩
  | del key =>
    obtain ⟨e', step, rep'⟩ := del_spec rep key
    exact ⟨e', by simp [call, step, idealCall], rep'⟩
  | existsKey key =>
    obtain ⟨e', step, rep'⟩ := existsKey_spec rep key now
    exact ⟨e', by simp [call, step, idealCall], rep'⟩
  | expire key ttlMs =>
    obtain ⟨e', step, rep'⟩ := expire_spec rep key ttlMs now
    exact ⟨e', by simp [call, step, idealCall], rep'⟩
  | persist key =>
    obtain ⟨rep', flag⟩ := persist_spec rep key
    exact ⟨_, by simp [call, flag, idealCall], rep'⟩
  | ttl key => exact ⟨e, by simp [call, ttl_spec rep, idealCall], rep⟩
  | tick =>
    obtain ⟨e', step, rep'⟩ := tick_spec rep now
    exact ⟨e', by simp [call, step, idealCall], rep'⟩

/-- A run of the engine follows the run of the abstract map. -/
theorem run_refines (rep : Represents e A) (cs : List Timed) :
    ∃ e', run cs e = some e' ∧ Represents e' (idealRun cs A) := by
  induction cs generalizing e A with
  | nil => exact ⟨e, rfl, rep⟩
  | cons c cs ih =>
    obtain ⟨e₁, step, rep₁⟩ := call_refines rep c.now c.call
    obtain ⟨e', rest, rep'⟩ := ih rep₁
    exact ⟨e', by simp [run, step, rest], rep'⟩

theorem idealRun_append (cs cs' : List Timed) (A : ExpiringMap Bytes Bytes) :
    idealRun (cs ++ cs') A = idealRun cs' (idealRun cs A) := by
  induction cs generalizing A with
  | nil => rfl
  | cons c cs ih => exact ih _

/-- Deadlines are set for stored keys only, in every state a run reaches. -/
theorem sound_idealCall (sound : A.Sound) (now : Int) (c : Call) :
    (idealCall A now c).1.Sound := by
  cases c with
  | set key val ttlMs => exact sound.put
  | get key => exact sound.look
  | del key => exact sound.drop
  | existsKey key => exact sound.look
  | expire key ttlMs =>
    simp only [idealCall, idealExpire]
    split
    · rename_i stored
      exact sound.rearm (Or.inr (Option.isSome_iff_ne_none.mp stored))
    · exact sound
  | persist key =>
    simp only [idealCall, idealPersist]
    split
    · exact sound
    · exact sound.rearm (Or.inl rfl)
  | ttl key => exact sound
  | tick => exact sound.sweep

/-- A deadline after a call was there before or is a sum the call has wrapped. -/
theorem deadline_idealCall {c : Call} {d : Int} (held : (idealCall A now c).1.deadline k = some d) :
    A.deadline k = some d ∨ ∃ sum, d = toInt64 sum := by
  cases c with
  | set key val ttlMs =>
    simp only [idealCall, ExpiringMap.put, Function.update_apply] at held
    split at held
    · split at held
      · cases held
        exact Or.inr ⟨_, rfl⟩
      · cases held
    · exact Or.inl held
  | get key => exact Or.inl (ExpiringMap.deadline_of_look held)
  | del key => exact Or.inl (ExpiringMap.deadline_of_drop held)
  | existsKey key => exact Or.inl (ExpiringMap.deadline_of_look held)
  | expire key ttlMs =>
    simp only [idealCall, idealExpire] at held
    split at held
    · simp only [ExpiringMap.rearm, Function.update_apply] at held
      split at held
      · cases held
        exact Or.inr ⟨_, rfl⟩
      · exact Or.inl held
    · exact Or.inl held
  | persist key =>
    simp only [idealCall, idealPersist] at held
    split at held
    · exact Or.inl held
    · simp only [ExpiringMap.rearm, Function.update_apply] at held
      split at held
      · cases held
      · exact Or.inl held
  | ttl key => exact Or.inl held
  | tick =>
    simp only [idealCall, ExpiringMap.sweep, Option.filter_eq_some_iff] at held
    exact Or.inl held.1

theorem sound_idealRun (sound : A.Sound) (cs : List Timed) : (idealRun cs A).Sound := by
  induction cs generalizing A with
  | nil => exact sound
  | cons c cs ih => exact ih (sound_idealCall sound c.now c.call)

/-- The deadlines of a run are in the range of `Ms`. -/
theorem deadline_idealRun {d : Int} (cs : List Timed)
    (ranged : ∀ k d, A.deadline k = some d → -2 ^ 63 ≤ d ∧ d < 2 ^ 63)
    (held : (idealRun cs A).deadline k = some d) : -2 ^ 63 ≤ d ∧ d < 2 ^ 63 := by
  induction cs generalizing A with
  | nil => exact ranged k d held
  | cons c cs ih =>
    apply ih _ held
    intro k d held
    rcases deadline_idealCall held with before | ⟨sum, rfl⟩
    · exact ranged k d before
    · exact toInt64_range sum

end

end FastGraph.KVEngine
