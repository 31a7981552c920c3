import FastGraph.Misc.Numeral
import FastGraph.SortedSet.Proofs.Sets

/-!
# Sorted sets are finite maps

With linearly ordered scores the engine is a family of finite maps from members to scores, one for
each key, and the levels of the skip lists show in no answer. `range_by_rank` and `zrank` count in
`int`, though: the answers that ask for ranks are those of the maps as long as the set has fewer than
`2 ^ 31` members, and `InReach` says how far beyond that.
-/

namespace FastGraph.SortedSetEngine
open Ranking SkipList

section
variable {S : Type} [LinearOrder S]

/-- The elements of a finite map from members to scores. -/
def entries (M : UnorderedMap Bytes S) : List (S ×ₗ Bytes) :=
  M.toList.map fun e => toLex (e.2, e.1)

/-- The elements of rank `start` to `stop`, ascending. -/
def idealRange (M : UnorderedMap Bytes S) (start stop : Int) : List (S × Bytes) :=
  ((ascending (entries M)).filter fun x =>
    start ≤ rank (entries M) x ∧ rank (entries M) x ≤ stop).map ofLex

/-- The elements with scores from `minScore` to `maxScore`, ascending. -/
def idealRangeByScore (M : UnorderedMap Bytes S) (minScore maxScore : S) : List (S × Bytes) :=
  ((ascending (entries M)).filter fun x =>
    minScore ≤ (ofLex x).1 ∧ (ofLex x).1 ≤ maxScore).map ofLex

/-- The number of elements smaller than that of the member, or `-1`. -/
def idealRank (M : UnorderedMap Bytes S) (member : Bytes) : Int :=
  match M.find member with
  | none => -1
  | some score => rank (entries M) (toLex (score, member))

/-- A call on a family of finite maps. The coins are not looked at. -/
def idealCall (A : Bytes → UnorderedMap Bytes S) :
    Call S → (Bytes → UnorderedMap Bytes S) × Reply S
  | .zadd key _ score member =>
    (Function.update A key ((A key).set member score),
      .int (if ((A key).find member).isNone then 1 else 0))
  | .zrem key member =>
    (Function.update A key ((A key).erase member), .flag ((A key).find member).isSome)
  | .zscore key member => (A, .score ((A key).find member))
  | .zrange key start stop => (A, .elements (idealRange (A key) start stop))
  | .zrangebyscore key minScore maxScore =>
    (A, .elements (idealRangeByScore (A key) minScore maxScore))
  | .zcard key => (A, .int (A key).size)
  | .zrank key member => (A, .int (idealRank (A key) member))

/-- The replies of a family of finite maps to a sequence of calls. -/
def idealRun : List (Call S) → (Bytes → UnorderedMap Bytes S) → List (Reply S)
  | [], _ => []
  | c :: cs, A => (idealCall A c).2 :: idealRun cs (idealCall A c).1

/-- The elements that `zrange` selects, which numbers them in an `int`. -/
def intRange (M : UnorderedMap Bytes S) (start stop : Int) : List (S × Bytes) :=
  (intPositions start stop 0 (ascending (entries M))).map ofLex

/-- The rank that `zrank` finds: that of the member if the search goes so far. -/
def intRank (M : UnorderedMap Bytes S) (member : Bytes) : Int :=
  match M.find member with
  | none => -1
  | some score =>
    if rank (entries M) (toLex (score, member)) < reach M.size then
      rank (entries M) (toLex (score, member))
    else -1

/-- A call on a family of finite maps with ranks that are counted in `int`. -/
def intCall (A : Bytes → UnorderedMap Bytes S) :
    Call S → (Bytes → UnorderedMap Bytes S) × Reply S
  | .zrange key start stop => (A, .elements (intRange (A key) start stop))
  | .zrank key member => (A, .int (intRank (A key) member))
  | c => idealCall A c

/-- Its replies to a sequence of calls. -/
def intRun : List (Call S) → (Bytes → UnorderedMap Bytes S) → List (Reply S)
  | [], _ => []
  | c :: cs, A => (intCall A c).2 :: intRun cs (intCall A c).1

/-- The numbers of a call are `int`s, as its parameters are. -/
def Call.Ints : Call S → Prop
  | .zrange _ start stop => IsInt start ∧ IsInt stop
  | _ => True

/-- A call that asks for ranks asks for such as an `int` counts to: those of `zrange` end in front of
the largest `int`, or the elements before their numbers come round to the start, and the rank of a
member lies in the reach of `zrank`. -/
def InReach (A : Bytes → UnorderedMap Bytes S) : Call S → Prop
  | .zrange key start stop => stop < 2 ^ 31 - 1 ∨ ((A key).size : Int) ≤ 2 ^ 32 + start
  | .zrank key member => ∀ score, (A key).find member = some score →
      rank (entries (A key)) (toLex (score, member)) < reach (A key).size
  | _ => True

/-- Every call of the sequence does. -/
def AllInReach : List (Call S) → (Bytes → UnorderedMap Bytes S) → Prop
  | [], _ => True
  | c :: cs, A => InReach A c ∧ AllInReach cs (idealCall A c).1

variable {M : UnorderedMap Bytes S} {s : S} {m : Bytes}

omit [LinearOrder S] in
theorem mem_entries : toLex (s, m) ∈ entries M ↔ M.find m = some s := by
  rw [← UnorderedMap.mem_toList, entries, List.mem_map]
  constructor
  · rintro ⟨⟨m', s'⟩, mem, same⟩
    obtain ⟨rfl, rfl⟩ := Prod.ext_iff.mp (toLex.injective same)
    exact mem
  · intro mem
    exact ⟨(m, s), mem, rfl⟩

omit [LinearOrder S] in
theorem nodup_entries : (entries M).Nodup := by
  have distinct : M.toList.Nodup := List.Nodup.of_map _ (UnorderedMap.nodup_keys M)
  apply distinct.map
  intro a b same
  obtain ⟨one, two⟩ := Prod.ext_iff.mp (toLex.injective same)
  exact Prod.ext two one

omit [LinearOrder S] in
theorem length_entries : (entries M).length = M.size := by
  simp [entries, UnorderedMap.toList, UnorderedMap.size]

/-! ### One skip list -/

variable [Inhabited S] {l : SkipList S} {ts : List (Tower (SkipList.Item S))}

/-- An ordered list has the elements of a map that agrees with its table. -/
theorem perm_entries (ordered : Ordered l ts) (same : ∀ m, l.memberScores.find m = M.find m) :
    (ranked ts).Perm (entries M) := by
  rw [List.perm_ext_iff_of_nodup ordered.ascending.nodup nodup_entries]
  intro x
  rw [show x = toLex ((ofLex x).1, (ofLex x).2) from rfl, ← ordered.scores, same, mem_entries]

theorem rangeByRank_eq (ordered : Ordered l ts) (same : ∀ m, l.memberScores.find m = M.find m)
    (start stop : Int) : l.rangeByRank start stop = some (intRange M start stop) := by
  rw [ordered.shape.rangeByRank, items_eq, intPositions_map, intRange,
    ordered.ascending.ascending_eq (perm_entries ordered same)]

/-- The elements of an ordered list in its order are the ascending ones of the map. -/
theorem elements_eq (ordered : Ordered l ts) (same : ∀ m, l.memberScores.find m = M.find m) :
    l.elements = some ((ascending (entries M)).map ofLex) := by
  rw [ordered.shape.elements, items_eq, ordered.ascending.ascending_eq (perm_entries ordered same)]

theorem rangeByScore_eq (ordered : Ordered l ts) (same : ∀ m, l.memberScores.find m = M.find m)
    (minScore maxScore : S) :
    l.rangeByScore minScore maxScore = some (idealRangeByScore M minScore maxScore) := by
  rw [ordered.rangeByScore, idealRangeByScore,
    ordered.ascending.ascending_eq (perm_entries ordered same)]

theorem size_eq (ordered : Ordered l ts) (same : ∀ m, l.memberScores.find m = M.find m) :
    l.size = M.size := by
  rw [ordered.shape.size, ← length_entries, ← (perm_entries ordered same).length_eq, ranked,
    List.length_map]

/-- A search finds the member at its rank, if it goes so far. -/
theorem findIdx?_eq (ordered : Ordered l ts) (same : ∀ m, l.memberScores.find m = M.find m)
    (scored : M.find m = some s) :
    ((((searched (items ts)).findIdx? fun r => r.2 == m).map Nat.cast).getD (-1) : Int) =
      intRank M m := by
  have perm := perm_entries ordered same
  have mem : toLex (s, m) ∈ ranked ts := by
    rw [← ordered.scores, same, scored]
  have first : (items ts).findIdx? (fun r => r.2 == m) = some (rank (entries M) (toLex (s, m))) := by
    rw [items_eq, List.findIdx?_map, findIdx?_eq_rank ordered.ascending mem, rank_perm perm]
    intro x memX
    constructor
    · intro here
      have own : (ofLex x).2 = m := by simpa using here
      have stored := (ordered.scores (ofLex x).2 (ofLex x).1).mpr memX
      rw [own, same, scored] at stored
      rw [Option.some.inj stored, ← own]
      rfl
    · rintro rfl
      simp
  have size : (items ts).length = M.size := by
    rw [items_eq, List.length_map, perm.length_eq, length_entries]
  rw [searched_eq, size, List.findIdx?_take, first, intRank, scored, Option.bind_some]
  generalize reach M.size = n
  by_cases far : rank (entries M) (toLex (s, m)) < n <;> simp [Option.guard, far]

/-! ### The engine -/

/-- The engine holds the family of finite maps `A`. -/
def Represents (e : SortedSetEngine S) (A : Bytes → UnorderedMap Bytes S) : Prop :=
  ∀ key, ∃ ts, Ordered (e.getOrCreate key) ts ∧
    ∀ m, (e.getOrCreate key).memberScores.find m = (A key).find m

theorem represents_empty : Represents (empty : SortedSetEngine S) fun _ => ∅ :=
  fun _ => ⟨[], ordered_empty, fun _ => rfl⟩

variable {e : SortedSetEngine S} {A : Bytes → UnorderedMap Bytes S} {key : Bytes}

/-- The table of a key has the scores of its map. -/
theorem Represents.scoreOf (rep : Represents e A) (key m : Bytes) :
    (e.getOrCreate key).scoreOf m = (A key).find m := by
  obtain ⟨_, -, same⟩ := rep key
  exact same m

/-- One set is replaced, and the map of its key with it. -/
theorem Represents.update (rep : Represents e A) {key : Bytes} {sl : SkipList S}
    {ts : List (Tower (SkipList.Item S))} (ordered : Ordered sl ts)
    (same : ∀ m, sl.memberScores.find m = M.find m) :
    Represents ⟨e.sets.set key sl⟩ (Function.update A key M) := by
  intro key'
  rw [getOrCreate_set]
  by_cases here : key' = key
  · subst here
    rw [if_pos rfl, Function.update_self]
    exact ⟨ts, ordered, same⟩
  · rw [if_neg here, Function.update_of_ne here]
    exact rep key'

theorem Represents.zadd (rep : Represents e A) (key : Bytes) (coins : List Bool) (score : S)
    (member : Bytes) :
    ∃ e', e.zadd key coins score member =
        some (e', if ((A key).find member).isNone then 1 else 0) ∧
      Represents e' (Function.update A key ((A key).set member score)) := by
  obtain ⟨ts, ordered, same⟩ := rep key
  obtain ⟨sl, ts', step, ordered', table⟩ := ordered.insert coins score member
  refine ⟨⟨e.sets.set key sl⟩, ?_, rep.update ordered' ?_⟩
  · rw [SortedSetEngine.zadd, rep.scoreOf, step]
    rfl
  · intro m
    rw [table, UnorderedMap.find_set, same]

/-- A map is not changed by the removal of a member that it does not have. -/
theorem Represents.erase_missing (rep : Represents e A) (missing : (A key).find m = none) :
    Represents e (Function.update A key ((A key).erase m)) := by
  intro key'
  by_cases here : key' = key
  · subst here
    obtain ⟨ts, ordered, same⟩ := rep key'
    refine ⟨ts, ordered, fun m' => ?_⟩
    rw [Function.update_self, UnorderedMap.find_erase, same]
    split
    · rename_i own
      rw [own, missing]
    · rfl
  · rw [Function.update_of_ne here]
    exact rep key'

theorem Represents.zrem (rep : Represents e A) (key member : Bytes) :
    ∃ e', e.zrem key member = some (e', ((A key).find member).isSome) ∧
      Represents e' (Function.update A key ((A key).erase member)) := by
  have table := rep.scoreOf key member
  cases scored : (A key).find member with
  | none =>
    rw [scored] at table
    exact ⟨e, zrem_of_none table, rep.erase_missing scored⟩
  | some sc =>
    rw [scored] at table
    obtain ⟨ts, ordered, same⟩ := rep key
    obtain ⟨sl, ts', step, ordered', erased⟩ := ordered.remove table
    refine ⟨⟨e.sets.set key sl⟩, ?_, rep.update ordered' ?_⟩
    · rw [zrem_of_some table, step]
      rfl
    · intro m
      rw [erased, UnorderedMap.find_erase, UnorderedMap.find_erase, same]

theorem Represents.zrank (rep : Represents e A) (key member : Bytes) :
    e.zrank key member = some (intRank (A key) member) := by
  have table := rep.scoreOf key member
  cases scored : (A key).find member with
  | none =>
    rw [scored] at table
    rw [zrank_of_none table, intRank, scored]
  | some sc =>
    rw [scored] at table
    obtain ⟨ts, ordered, same⟩ := rep key
    rw [zrank_of_some table ordered.shape, findIdx?_eq ordered same scored]

/-- A call answers as the family of maps does, with ranks in `int`, and leaves the two in step. -/
theorem call_refines (rep : Represents e A) (c : Call S) :
    ∃ e', e.call c = some (e', (intCall A c).2) ∧ Represents e' (intCall A c).1 := by
  cases c with
  | zadd key coins score member =>
    obtain ⟨e', step, rep'⟩ := rep.zadd key coins score member
    exact ⟨e', by rw [call, step]; rfl, rep'⟩
  | zrem key member =>
    obtain ⟨e', step, rep'⟩ := rep.zrem key member
    exact ⟨e', by rw [call, step]; rfl, rep'⟩
  | zscore key member => exact ⟨e, by rw [call, zscore_eq, rep.scoreOf]; rfl, rep⟩
  | zrange key start stop =>
    obtain ⟨ts, ordered, same⟩ := rep key
    exact ⟨e, by rw [call, zrange_eq, rangeByRank_eq ordered same]; rfl, rep⟩
  | zrangebyscore key minScore maxScore =>
    obtain ⟨ts, ordered, same⟩ := rep key
    exact ⟨e, by rw [call, zrangebyscore_eq, rangeByScore_eq ordered same]; rfl, rep⟩
  | zcard key =>
    obtain ⟨ts, ordered, same⟩ := rep key
    exact ⟨e, by rw [call, zcard_eq, size_eq ordered same]; rfl, rep⟩
  | zrank key member => exact ⟨e, by rw [call, rep.zrank]; rfl, rep⟩

theorem run_refines (rep : Represents e A) (cs : List (Call S)) :
    run cs e = some (intRun cs A) := by
  induction cs generalizing e A with
  | nil => rfl
  | cons c cs ih =>
    obtain ⟨e', step, rep'⟩ := call_refines rep c
    simp [run, intRun, step, ih rep']

/-! ### The levels -/

/-- The call with all coins tails: every level it draws is 1. -/
def Call.grounded : Call S → Call S
  | .zadd key _ score member => .zadd key [] score member
  | c => c

omit [Inhabited S] in
theorem intRun_grounded (cs : List (Call S)) (A : Bytes → UnorderedMap Bytes S) :
    intRun (cs.map Call.grounded) A = intRun cs A := by
  induction cs generalizing A with
  | nil => rfl
  | cons c cs ih =>
    have same : intCall A c.grounded = intCall A c := by
      cases c <;> rfl
    simp [intRun, same, ih]

/-! ### Ranks -/

omit [Inhabited S] in
/-- The selection is that of the ranks exactly if it is within the reach of an `int`. -/
theorem intRange_eq_iff {start stop : Int} (first : IsInt start) (last : IsInt stop) :
    intRange M start stop = idealRange M start stop ↔
      stop < 2 ^ 31 - 1 ∨ (M.size : Int) ≤ 2 ^ 32 + start := by
  have size : (ascending (entries M)).length = M.size := by
    rw [ascending, List.length_mergeSort, length_entries]
  have plain : idealRange M start stop =
      (positions start stop 0 (ascending (entries M))).map ofLex := by
    rw [positions_eq (ascending_strict nodup_entries), idealRange]
    simp only [zero_add, rank_perm (List.mergeSort_perm (entries M) _), ascending]
  have upTo : stop ≤ 2 ^ 31 - 1 := by
    have := last.2
    omega
  rw [plain, intRange, List.map_injective_iff.mpr ofLex.injective |>.eq_iff,
    intPositions_eq_iff first upTo, size]

omit [Inhabited S] in
/-- The rank is found exactly if it is within the reach of the search. -/
theorem intRank_eq_iff :
    intRank M m = idealRank M m ↔ ∀ score, M.find m = some score →
      rank (entries M) (toLex (score, m)) < reach M.size := by
  unfold intRank idealRank
  cases scored : M.find m with
  | none => simp
  | some score =>
    simp only [Option.some.injEq, forall_eq']
    generalize rank (entries M) (toLex (score, m)) = r
    by_cases found : r < reach M.size
    · exact iff_of_true (if_pos found) found
    · refine iff_of_false ?_ found
      rw [if_neg found]
      omega

omit [Inhabited S] in
/-- A call is answered as by the maps exactly if it asks for ranks within reach. -/
theorem intCall_eq_iff {c : Call S} (ints : c.Ints) :
    (intCall A c).2 = (idealCall A c).2 ↔ InReach A c := by
  cases c with
  | zrange key start stop =>
    refine Iff.trans ?_ (intRange_eq_iff ints.1 ints.2)
    exact ⟨Reply.elements.inj, congrArg Reply.elements⟩
  | zrank key member =>
    refine Iff.trans ?_ intRank_eq_iff
    exact ⟨Reply.int.inj, congrArg Reply.int⟩
  | _ => exact iff_of_true rfl trivial

omit [Inhabited S] in
theorem intRun_eq_iff (cs : List (Call S)) (ints : ∀ c ∈ cs, c.Ints)
    (A : Bytes → UnorderedMap Bytes S) : intRun cs A = idealRun cs A ↔ AllInReach cs A := by
  induction cs generalizing A with
  | nil => exact iff_of_true rfl trivial
  | cons c cs ih =>
    have next : (intCall A c).1 = (idealCall A c).1 := by
      cases c <;> rfl
    rw [intRun, idealRun, AllInReach, List.cons.injEq, intCall_eq_iff (ints c (by simp)), next,
      ih (fun c mem => ints c (by simp [mem]))]

omit [Inhabited S] in
theorem rank_lt_size (scored : M.find m = some s) :
    rank (entries M) (toLex (s, m)) < M.size := by
  have mem : toLex (s, m) ∈ entries M := mem_entries.mpr scored
  rw [← length_entries, rank, List.countP_lt_length_iff]
  exact ⟨_, mem, by simp⟩

omit [Inhabited S] in
/-- In a set of fewer members than numbers of `int` every rank is within reach. -/
theorem inReach_of_small {c : Call S} (small : ∀ key, (A key).size < 2 ^ 31) (ints : c.Ints) :
    InReach A c := by
  cases c with
  | zrange key start stop =>
    have fewer := small key
    have low := ints.1.1
    exact Or.inr (by omega)
  | zrank key member =>
    intro score scored
    exact (rank_lt_size scored).trans_le (le_reach (small key))
  | _ => trivial

omit [Inhabited S] in
/-- A call adds one member at most. -/
theorem size_idealCall_le (c : Call S) (key : Bytes) :
    ((idealCall A c).1 key).size ≤ (A key).size + 1 := by
  cases c with
  | zadd key' coins score member =>
    by_cases here : key = key'
    · subst here
      simp only [idealCall, Function.update_self, UnorderedMap.size_set]
      split <;> omega
    · simp [idealCall, here]
  | zrem key' member =>
    by_cases here : key = key'
    · subst here
      simp only [idealCall, Function.update_self, UnorderedMap.size_erase]
      split <;> omega
    · simp [idealCall, here]
  | _ => exact Nat.le_succ _

omit [Inhabited S] in
/-- A sequence of calls that is too short to fill a set asks for ranks within reach. -/
theorem allInReach_of_short {cs : List (Call S)} (ints : ∀ c ∈ cs, c.Ints)
    (short : ∀ key, (A key).size + cs.length < 2 ^ 31) : AllInReach cs A := by
  induction cs generalizing A with
  | nil => trivial
  | cons c cs ih =>
    refine ⟨inReach_of_small (fun key => ?_) (ints c (by simp)),
      ih (fun c mem => ints c (by simp [mem])) fun key => ?_⟩
    · have := short key
      rw [List.length_cons] at this
      omega
    · have := short key
      have := size_idealCall_le (A := A) c key
      rw [List.length_cons] at *
      omega

/-- An empty engine answers every sequence of calls as a family of finite maps from members to scores
if and only if every call asks for ranks that an `int` counts to, and it answers alike whatever levels
are drawn. The lists of elements that the maps return are cut from one that is strictly ascending by
score and member and has the elements of the map. -/
theorem answers_of_empty_iff (cs : List (Call S)) (ints : ∀ c ∈ cs, c.Ints) :
    (run cs empty = some (idealRun cs fun _ => ∅) ↔ AllInReach cs fun _ => ∅) ∧
      run (cs.map Call.grounded) empty = run cs empty ∧
      ∀ M : UnorderedMap Bytes S, Ascending (ascending (entries M)) ∧
        ∀ s m, toLex (s, m) ∈ ascending (entries M) ↔ M.find m = some s := by
  refine ⟨?_, ?_, ?_⟩
  · rw [run_refines represents_empty, Option.some.injEq, intRun_eq_iff cs ints]
  · rw [run_refines represents_empty, run_refines represents_empty, intRun_grounded]
  · intro M
    refine ⟨ascending_strict nodup_entries, ?_⟩
    intro s m
    rw [mem_ascending, mem_entries]

end

/-- A member that moves behind another one. -/
theorem answers_of_empty_iff_moved :
    let calls : List (Call Int) := [.zadd (str "z") [true] 1 (str "a"), .zadd (str "z") [] 2 (str "b"),
      .zadd (str "z") [] 3 (str "a"), .zrange (str "z") 1 5, .zrank (str "z") (str "a")]
    run calls empty = some (idealRun calls fun _ => ∅) ∧
      run calls empty = some [.int 1, .int 1, .int 0, .elements [(3, str "a")], .int 1] := by
  intro calls
  have ints : ∀ c ∈ calls, c.Ints := by simp [calls, Call.Ints, IsInt]
  exact ⟨(answers_of_empty_iff calls ints).1.mpr
    (allInReach_of_short ints fun key => by simp [calls]), rfl⟩

/-! ### Beyond `int` -/

section
variable {S : Type} [LinearOrder S]

/-- The maps after a sequence of calls. -/
def idealAfter (cs : List (Call S)) (A : Bytes → UnorderedMap Bytes S) :
    Bytes → UnorderedMap Bytes S :=
  cs.foldl (fun A c => (idealCall A c).1) A

theorem idealRun_append (cs later : List (Call S)) (A : Bytes → UnorderedMap Bytes S) :
    idealRun (cs ++ later) A = idealRun cs A ++ idealRun later (idealAfter cs A) := by
  induction cs generalizing A with
  | nil => rfl
  | cons c cs ih => simp [idealRun, idealAfter, ih]

theorem intRun_append (cs later : List (Call S)) (A : Bytes → UnorderedMap Bytes S) :
    intRun (cs ++ later) A = intRun cs A ++ intRun later (idealAfter cs A) := by
  induction cs generalizing A with
  | nil => rfl
  | cons c cs ih =>
    have next : (intCall A c).1 = (idealCall A c).1 := by
      cases c <;> rfl
    simp [intRun, idealAfter, next, ih]

theorem idealAfter_concat (cs : List (Call S)) (c : Call S) (A : Bytes → UnorderedMap Bytes S) :
    idealAfter (cs ++ [c]) A = (idealCall (idealAfter cs A) c).1 := by
  rw [idealAfter, List.foldl_append]
  rfl

end

/-- A member for each number below `n`, with the number as its score. -/
def ladder (key : Bytes) (n : Nat) : List (Call Int) :=
  (List.range n).map fun i : Nat => .zadd key [] i (decimal i)

theorem ladder_succ (key : Bytes) (n : Nat) :
    ladder key (n + 1) = ladder key n ++ [.zadd key [] n (decimal n)] := by
  rw [ladder, List.range_succ, List.map_append]
  rfl

theorem intRun_ladder (key : Bytes) (n : Nat) :
    intRun (ladder key n) (fun _ => ∅) = idealRun (ladder key n) fun _ => ∅ := by
  induction n with
  | zero => rfl
  | succ n ih =>
    rw [ladder_succ, intRun_append, idealRun_append, ih]
    rfl

/-- The members are as many as the numbers, and they are those. -/
theorem idealAfter_ladder (key : Bytes) (n : Nat) :
    (idealAfter (ladder key n) (fun _ => ∅) key).size = n ∧
      ∀ m s, (idealAfter (ladder key n) (fun _ => ∅) key).find m = some s ↔
        ∃ i < n, m = decimal i ∧ s = (i : Int) := by
  induction n with
  | zero => simp [ladder, idealAfter]
  | succ n ih =>
    obtain ⟨size, found⟩ := ih
    rw [ladder_succ, idealAfter_concat]
    generalize idealAfter (ladder key n) (fun _ => ∅) = A at size found
    have new : (A key).find (decimal n) = none := by
      rw [Option.eq_none_iff_forall_ne_some]
      intro s present
      obtain ⟨i, less, same, -⟩ := (found _ _).mp present
      have := congrArg digitsValue same
      rw [digitsValue_decimal, digitsValue_decimal] at this
      omega
    constructor
    · simp [idealCall, UnorderedMap.size_set, new, size]
    · intro m s
      simp only [idealCall, Function.update_self, UnorderedMap.find_set]
      constructor
      · intro present
        split at present
        · rename_i own
          exact ⟨n, by omega, own, (Option.some.inj present).symm⟩
        · obtain ⟨i, less, rest⟩ := (found _ _).mp present
          exact ⟨i, by omega, rest⟩
      · rintro ⟨i, less, rfl, rfl⟩
        split
        · rename_i own
          have := congrArg digitsValue own
          rw [digitsValue_decimal, digitsValue_decimal] at this
          rw [this]
        · rename_i other
          refine (found _ _).mpr ⟨i, ?_, rfl, rfl⟩
          have apart : i ≠ n := fun same => other (by rw [same])
          omega

/-- In a set of so many members `zrank` finds none, not even the first. -/
theorem zrank_ladder {n : Nat} (low : 2 ^ 31 ≤ n) (high : n < 2 ^ 32) (key : Bytes) :
    ∃ replies, run (ladder key n ++ [.zrank key (decimal 0)]) empty =
        some (replies ++ [.int (-1)]) ∧
      idealRun (ladder key n ++ [.zrank key (decimal 0)]) (fun _ => ∅) = replies ++ [.int 0] := by
  obtain ⟨size, found⟩ := idealAfter_ladder key n
  have first : (idealAfter (ladder key n) (fun _ => ∅) key).find (decimal 0) = some 0 :=
    (found _ _).mpr ⟨0, by omega, rfl, rfl⟩
  have least : rank (entries (idealAfter (ladder key n) (fun _ => ∅) key)) (toLex (0, decimal 0)) =
      0 := by
    rw [rank, List.countP_eq_zero]
    intro x mem
    obtain ⟨i, -, own, score⟩ := (found (ofLex x).2 (ofLex x).1).mp (mem_entries.mp mem)
    rw [decide_eq_true_eq, not_lt, Prod.Lex.le_iff]
    change (0 : Int) < (ofLex x).1 ∨ 0 = (ofLex x).1 ∧ decimal 0 ≤ (ofLex x).2
    rw [own, score]
    by_cases zero : i = 0
    · exact Or.inr ⟨by omega, le_of_eq (by rw [zero])⟩
    · exact Or.inl (by omega)
  refine ⟨idealRun (ladder key n) fun _ => ∅, ?_, ?_⟩
  · rw [run_refines represents_empty, intRun_append, intRun_ladder]
    simp only [intRun, intCall, intRank, first, size, reach_eq_zero low high]
    rfl
  · rw [idealRun_append]
    simp only [idealRun, idealCall, idealRank, first, least]
    rfl

/-- The smallest such set. -/
theorem zrank_beyond_int :
    ∃ replies, run (ladder (str "z") (2 ^ 31) ++ [.zrank (str "z") (decimal 0)]) empty =
        some (replies ++ [.int (-1)]) ∧
      idealRun (ladder (str "z") (2 ^ 31) ++ [.zrank (str "z") (decimal 0)]) (fun _ => ∅) =
        replies ++ [.int 0] :=
  zrank_ladder le_rfl (by norm_num) (str "z")

end FastGraph.SortedSetEngine
