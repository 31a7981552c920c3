import FastGraph.Index.Proofs.SkipList
import FastGraph.SortedSet.SortedSetEngine

/-!
# The set of a key

Every call of the engine as calls of the skip list of its key. A key without a set answers as
the empty one.
-/

namespace FastGraph.SortedSetEngine
open SkipList

variable {S : Type} {e e' : SortedSetEngine S} {key member : Bytes}

theorem getOrCreate_set [Inhabited S] (e : SortedSetEngine S) (key key' : Bytes) (sl : SkipList S) :
    (⟨e.sets.set key sl⟩ : SortedSetEngine S).getOrCreate key' =
      if key' = key then sl else e.getOrCreate key' := by
  unfold getOrCreate
  rw [UnorderedMap.find_set]
  split <;> rfl

/-! ### Reads -/

theorem zscore_eq [Inhabited S] (e : SortedSetEngine S) (key member : Bytes) :
    e.zscore key member = (e.getOrCreate key).scoreOf member := by
  unfold zscore getOrCreate
  cases e.sets.find key <;> rfl

theorem zcard_eq [Inhabited S] (e : SortedSetEngine S) (key : Bytes) :
    e.zcard key = (e.getOrCreate key).size := by
  unfold zcard getOrCreate
  cases e.sets.find key <;> rfl

theorem zrange_eq [Inhabited S] (e : SortedSetEngine S) (key : Bytes) (start stop : Int) :
    e.zrange key start stop = (e.getOrCreate key).rangeByRank start stop := by
  unfold zrange getOrCreate
  cases e.sets.find key with
  | none => exact (shape_empty.rangeByRank start stop).symm
  | some l => rfl

theorem zrangebyscore_eq [Inhabited S] [LT S] [DecidableLT S] [LE S] [DecidableLE S]
    (e : SortedSetEngine S) (key : Bytes) (minScore maxScore : S) :
    e.zrangebyscore key minScore maxScore = (e.getOrCreate key).rangeByScore minScore maxScore := by
  unfold zrangebyscore getOrCreate
  cases e.sets.find key with
  | none =>
    obtain ⟨pre, post, cut, -, -, -, -, run⟩ := shape_empty.rangeByScore minScore maxScore
    obtain ⟨-, rfl⟩ := List.append_eq_nil_iff.mp cut.symm
    exact run.symm
  | some l => rfl

/-- A member without a score has no rank. -/
theorem zrank_of_none [Inhabited S] (unscored : (e.getOrCreate key).scoreOf member = none) :
    e.zrank key member = some (-1) := by
  unfold getOrCreate at unscored
  unfold zrank
  cases found : e.sets.find key with
  | none => rfl
  | some l =>
    rw [found, Option.getD_some] at unscored
    simp only [unscored]

/-- The loop of `zrank` finds the first match among the first `size` results. -/
theorem positionOf_eq (member : Bytes) (size i : Int) (results : List (S × Bytes)) :
    positionOf member size i results =
      (((results.take (size - i).toNat).findIdx? fun r => r.2 == member).map
        fun k : Nat => i + k).getD (-1) := by
  induction results generalizing i with
  | nil => simp [positionOf]
  | cons r results ih =>
    rw [positionOf]
    by_cases more : i < size
    · have next : (size - i).toNat = (size - (i + 1)).toNat + 1 := by omega
      rw [if_pos more, next, List.take_succ_cons, List.findIdx?_cons, ih]
      by_cases here : (r.2 == member) = true
      · rw [if_pos here, if_pos here]
        simp
      · rw [if_neg here, if_neg here, Option.map_map]
        congr 2
        funext k
        simp only [Function.comp_apply, Nat.cast_add, Nat.cast_one]
        omega
    · have none : (size - i).toNat = 0 := by omega
      rw [if_neg more, none, List.take_zero]
      rfl

/-- The rank of another member is looked up in the list of the elements, as far as the search
goes. -/
theorem zrank_of_some [Inhabited S] {s : S} {ts : List (Tower (SkipList.Item S))}
    (scored : (e.getOrCreate key).scoreOf member = some s)
    (shape : Shape (e.getOrCreate key) ts) :
    e.zrank key member = some ((((Ranking.searched (items ts)).findIdx? fun r =>
      r.2 == member).map Nat.cast).getD (-1)) := by
  have size : (e.getOrCreate key).size = (items ts).length := by
    rw [shape.size, items, List.length_map]
  have listed := shape.rangeByRank 0 (toInt32 (e.getOrCreate key).size)
  have asked : e.zrank key member =
      ((e.getOrCreate key).rangeByRank 0 (toInt32 (e.getOrCreate key).size)).map
        fun results => positionOf member (toInt32 results.length) 0 results := by
    unfold getOrCreate at scored ⊢
    unfold zrank
    cases found : e.sets.find key with
    | none =>
      rw [found] at scored
      cases scored
    | some l =>
      rw [found, Option.getD_some] at scored
      simp only [scored, Option.getD_some]
      cases l.rangeByRank 0 (toInt32 l.size) <;> rfl
  rw [asked, listed, Option.map_some, positionOf_eq, size, Int.sub_zero, ← Ranking.searched]
  simp only [zero_add]

/-! ### Writes -/

section
variable [Inhabited S] [BEq S] [LT S] [DecidableLT S]

/-- A member without a score is not looked for. -/
theorem zrem_of_none (unscored : (e.getOrCreate key).scoreOf member = none) :
    e.zrem key member = some (e, false) := by
  unfold getOrCreate at unscored
  unfold zrem
  cases found : e.sets.find key with
  | none => rfl
  | some l =>
    rw [found, Option.getD_some] at unscored
    simp only [unscored]

/-- Another member is removed with its score. -/
theorem zrem_of_some {s : S} (scored : (e.getOrCreate key).scoreOf member = some s) :
    e.zrem key member =
      ((e.getOrCreate key).remove s member).map fun r => (⟨e.sets.set key r.1⟩, r.2) := by
  unfold getOrCreate at scored ⊢
  unfold zrem
  cases found : e.sets.find key with
  | none =>
    rw [found] at scored
    cases scored
  | some l =>
    rw [found, Option.getD_some] at scored
    simp only [scored, Option.getD_some]
    cases l.remove s member <;> rfl

/-- What `ZREM` does. -/
theorem zrem_cases {done : Bool} (removed : e.zrem key member = some (e', done)) :
    (e.getOrCreate key).scoreOf member = none ∧ e' = e ∧ done = false ∨
    ∃ s l, (e.getOrCreate key).scoreOf member = some s ∧
      (e.getOrCreate key).remove s member = some (l, done) ∧ e' = ⟨e.sets.set key l⟩ := by
  cases scored : (e.getOrCreate key).scoreOf member with
  | none =>
    rw [zrem_of_none scored] at removed
    cases removed
    exact Or.inl ⟨rfl, rfl, rfl⟩
  | some s =>
    rw [zrem_of_some scored] at removed
    obtain ⟨⟨l, done'⟩, step, same⟩ := Option.map_eq_some_iff.mp removed
    cases same
    exact Or.inr ⟨s, l, rfl, step, rfl⟩

/-- A call is a `ZADD`, a `ZREM` or a read, which leaves the engine as it is. -/
theorem call_cases [LE S] [DecidableLE S] {c : Call S} {reply : Reply S}
    (called : e.call c = some (e', reply)) :
    (∃ key coins score member added, c = .zadd key coins score member ∧
      e.zadd key coins score member = some (e', added)) ∨
    (∃ key member done, c = .zrem key member ∧ e.zrem key member = some (e', done)) ∨
    (∀ key coins score member, c ≠ .zadd key coins score member) ∧
      (∀ key member, c ≠ .zrem key member) ∧ e' = e := by
  cases c with
  | zadd key coins score member =>
    obtain ⟨⟨e₁, added⟩, step, same⟩ := Option.bind_eq_some_iff.mp called
    cases same
    exact Or.inl ⟨key, coins, score, member, added, rfl, step⟩
  | zrem key member =>
    obtain ⟨⟨e₁, done⟩, step, same⟩ := Option.bind_eq_some_iff.mp called
    cases same
    exact Or.inr (Or.inl ⟨key, member, done, rfl, step⟩)
  | zscore key member =>
    cases called
    exact Or.inr (Or.inr ⟨nofun, nofun, rfl⟩)
  | zrange key start stop =>
    obtain ⟨es, -, same⟩ := Option.bind_eq_some_iff.mp called
    cases same
    exact Or.inr (Or.inr ⟨nofun, nofun, rfl⟩)
  | zrangebyscore key minScore maxScore =>
    obtain ⟨es, -, same⟩ := Option.bind_eq_some_iff.mp called
    cases same
    exact Or.inr (Or.inr ⟨nofun, nofun, rfl⟩)
  | zcard key =>
    cases called
    exact Or.inr (Or.inr ⟨nofun, nofun, rfl⟩)
  | zrank key member =>
    obtain ⟨rank, -, same⟩ := Option.bind_eq_some_iff.mp called
    cases same
    exact Or.inr (Or.inr ⟨nofun, nofun, rfl⟩)

end

end FastGraph.SortedSetEngine
