import FastGraph.Index.Proofs.Stocked
import FastGraph.SortedSet.Proofs.Sets

/-!
# Sorted sets whatever their scores

Every call of the engine returns, also for scores that are in no order, and sets without
elements are read as sets that were never made.
-/

namespace FastGraph.SortedSetEngine
open SkipList

section
variable {S : Type} [Inhabited S] [BEq S] [LT S] [DecidableLT S] {e e' : SortedSetEngine S}
  {key member : Bytes}

/-- The lists of an engine that calls have led to. -/
def Kept (e : SortedSetEngine S) : Prop :=
  ∀ key, ∃ ts, Stocked (fun _ => True) (e.getOrCreate key) ts

omit [BEq S] [LT S] [DecidableLT S] in
theorem kept_empty : Kept (empty : SortedSetEngine S) := fun _ => ⟨[], stocked_empty⟩

omit [BEq S] [LT S] [DecidableLT S] in
theorem Kept.set (kept : Kept e) {l : SkipList S} {ts : List (Tower (SkipList.Item S))}
    (stocked : Stocked (fun _ => True) l ts) (key : Bytes) : Kept ⟨e.sets.set key l⟩ := by
  intro key'
  rw [getOrCreate_set]
  split
  · exact ⟨ts, stocked⟩
  · exact kept key'

theorem Kept.zadd (kept : Kept e) (key : Bytes) (coins : List Bool) (score : S) (member : Bytes) :
    ∃ e' n, e.zadd key coins score member = some (e', n) ∧ Kept e' := by
  obtain ⟨ts, stocked⟩ := kept key
  obtain ⟨l, ts', step, stocked'⟩ := stocked.insert coins score (m := member) trivial
  exact ⟨_, _, by rw [SortedSetEngine.zadd, step]; rfl, kept.set stocked' key⟩

theorem Kept.zrem (kept : Kept e) (key member : Bytes) :
    ∃ e' done, e.zrem key member = some (e', done) ∧ Kept e' := by
  cases scored : (e.getOrCreate key).scoreOf member with
  | none => exact ⟨e, false, zrem_of_none scored, kept⟩
  | some score =>
    obtain ⟨ts, stocked⟩ := kept key
    obtain ⟨l, ts', done, step, stocked'⟩ := stocked.remove score member
    refine ⟨⟨e.sets.set key l⟩, done, ?_, kept.set stocked' key⟩
    rw [zrem_of_some scored, step]
    rfl

/-! ### Reads -/

omit [BEq S] [LT S] [DecidableLT S] in
theorem Kept.zrange (kept : Kept e) (key : Bytes) (start stop : Int) :
    ∃ results, e.zrange key start stop = some results := by
  obtain ⟨ts, stocked⟩ := kept key
  exact ⟨_, (zrange_eq e key start stop).trans (stocked.shape.rangeByRank start stop)⟩

omit [BEq S] in
theorem Kept.zrangebyscore [LE S] [DecidableLE S] (kept : Kept e) (key : Bytes)
    (minScore maxScore : S) : ∃ results, e.zrangebyscore key minScore maxScore = some results := by
  obtain ⟨ts, stocked⟩ := kept key
  obtain ⟨results, run, -⟩ := stocked.rangeByScore minScore maxScore
  exact ⟨results, (zrangebyscore_eq e key minScore maxScore).trans run⟩

omit [BEq S] [LT S] [DecidableLT S] in
theorem Kept.zrank (kept : Kept e) (key member : Bytes) :
    ∃ rank, e.zrank key member = some rank := by
  cases scored : (e.getOrCreate key).scoreOf member with
  | none => exact ⟨-1, zrank_of_none scored⟩
  | some score =>
    obtain ⟨ts, stocked⟩ := kept key
    exact ⟨_, zrank_of_some scored stocked.shape⟩

/-- Every call returns, and keeps the lists. -/
theorem Kept.returns [LE S] [DecidableLE S] (kept : Kept e) (c : Call S) :
    ∃ e' reply, e.call c = some (e', reply) ∧ Kept e' := by
  cases c with
  | zadd key coins score member =>
    obtain ⟨e', n, step, kept'⟩ := kept.zadd key coins score member
    exact ⟨e', .int n, by rw [SortedSetEngine.call, step]; rfl, kept'⟩
  | zrem key member =>
    obtain ⟨e', done, step, kept'⟩ := kept.zrem key member
    exact ⟨e', .flag done, by rw [SortedSetEngine.call, step]; rfl, kept'⟩
  | zscore key member => exact ⟨e, _, rfl, kept⟩
  | zrange key start stop =>
    obtain ⟨es, run⟩ := kept.zrange key start stop
    exact ⟨e, .elements es, by rw [SortedSetEngine.call, run]; rfl, kept⟩
  | zrangebyscore key minScore maxScore =>
    obtain ⟨es, run⟩ := kept.zrangebyscore key minScore maxScore
    exact ⟨e, .elements es, by rw [SortedSetEngine.call, run]; rfl, kept⟩
  | zcard key => exact ⟨e, _, rfl, kept⟩
  | zrank key member =>
    obtain ⟨rank, run⟩ := kept.zrank key member
    exact ⟨e, .int rank, by rw [SortedSetEngine.call, run]; rfl, kept⟩

theorem Kept.call [LE S] [DecidableLE S] (kept : Kept e) {c : Call S} {reply : Reply S}
    (called : e.call c = some (e', reply)) : Kept e' := by
  obtain ⟨e₁, reply₁, step, kept₁⟩ := kept.returns c
  cases Option.some.inj (step.symm.trans called)
  exact kept₁

/-- A run keeps them. -/
theorem Kept.after [LE S] [DecidableLE S] (kept : Kept e) (calls : List (Call S))
    (ran : SortedSetEngine.after calls e = some e') : Kept e' := by
  induction calls generalizing e with
  | nil =>
    cases ran
    exact kept
  | cons c calls ih =>
    obtain ⟨e₁, step, rest⟩ := Option.bind_eq_some_iff.mp ran
    obtain ⟨⟨e₂, reply⟩, called, same⟩ := Option.map_eq_some_iff.mp step
    cases same
    exact ih (kept.call called) rest

omit [BEq S] [LT S] [DecidableLT S] in
/-- The elements of a set are those of the list, from which `zrange` selects by number. -/
theorem Kept.elements (kept : Kept e) (key : Bytes) :
    ∃ xs, (e.getOrCreate key).elements = some xs ∧ (xs.length : Int) = e.zcard key ∧
      ∀ start stop, e.zrange key start stop = some (Ranking.intPositions start stop 0 xs) := by
  obtain ⟨ts, stocked⟩ := kept key
  refine ⟨items ts, stocked.shape.elements, ?_, ?_⟩
  · rw [zcard_eq, stocked.shape.size]
    simp [items]
  · intro start stop
    rw [zrange_eq, stocked.shape.rangeByRank]

/-- Two engines answer every read alike. -/
structure Alike [LE S] [DecidableLE S] (e e' : SortedSetEngine S) : Prop where
  zscore : ∀ key member, e.zscore key member = e'.zscore key member
  zrange : ∀ key start stop, e.zrange key start stop = e'.zrange key start stop
  zrangebyscore : ∀ key minScore maxScore,
    e.zrangebyscore key minScore maxScore = e'.zrangebyscore key minScore maxScore
  zcard : ∀ key, e.zcard key = e'.zcard key
  zrank : ∀ key member, e.zrank key member = e'.zrank key member

omit [BEq S] in
/-- Sets without elements are read as no sets. -/
theorem Kept.alike_empty [LE S] [DecidableLE S] (kept : Kept e) (none : ∀ key, e.zcard key = 0) :
    Alike e empty := by
  have blank (key : Bytes) : Stocked (fun _ => True) (e.getOrCreate key) [] := by
    obtain ⟨ts, stocked⟩ := kept key
    have size : (e.getOrCreate key).size = 0 := by
      have card := none key
      rw [zcard_eq] at card
      exact Int.ofNat_eq_zero.mp card
    rwa [stocked.eq_nil size] at stocked
  have unscored (key member : Bytes) : e.zscore key member = Option.none := by
    rw [zscore_eq, Option.eq_none_iff_forall_ne_some]
    intro s found
    obtain ⟨t, mem, -⟩ := (blank key).scored member s found
    cases mem
  refine ⟨unscored, ?_, ?_, none, ?_⟩
  · intro key start stop
    rw [zrange_eq, (blank key).shape.rangeByRank]
    rfl
  · intro key minScore maxScore
    obtain ⟨pre, post, cut, -, -, -, -, run⟩ := (blank key).shape.rangeByScore minScore maxScore
    obtain ⟨-, rfl⟩ := List.append_eq_nil_iff.mp cut.symm
    rw [zrangebyscore_eq, run]
    rfl
  · intro key member
    have absent := unscored key member
    rw [zscore_eq] at absent
    exact zrank_of_none absent

end

end FastGraph.SortedSetEngine
