import FastGraph.Dispatch.Proofs.Calls
import FastGraph.Protocol.Proofs.ArrayRoundTrip
import FastGraph.SortedSet.Proofs.SortedSetEngine

/-!
# The indices of `ZRANGE`

In the protocol that the server speaks a negative index counts from the end of the set. The
skip list compares positions with the two numbers as they are, so that a negative stop selects
nothing and a negative start everything up to the stop. It counts the positions in an `int`, which
shows where the stop is the largest one and the set has more elements than that.
-/

namespace FastGraph.Dispatcher
open Program Ranking RespEncoder RespParser

/-! ### The convention -/

/-- The index that `i` stands for in a list of `n` elements. -/
def resolve (n i : Int) : Int := if i < 0 then n + i else i

/-- The first index that is selected. -/
def firstIndex (n start : Int) : Int := max 0 (resolve n start)

/-- The last index that is selected. -/
def lastIndex (n stop : Int) : Int := min (n - 1) (resolve n stop)

/-- The elements from the resolved start to the resolved stop. -/
def selected {α : Type} (xs : List α) (start stop : Int) : List α :=
  (xs.take (lastIndex xs.length stop + 1).toNat).drop (firstIndex xs.length start).toNat

/-- The convention and the comparison of positions select the same: the stop is not negative and
the start selects from the beginning or is not negative itself, or the stop is negative and
lies in front of the start. -/
def SameIndices (n start stop : Int) : Prop :=
  0 ≤ stop ∧ (0 ≤ start ∨ n + start ≤ 0) ∨ stop < 0 ∧ n + stop < firstIndex n start

instance (n start stop : Int) : Decidable (SameIndices n start stop) :=
  inferInstanceAs (Decidable (_ ∨ _))

/-- The numbers of the elements do not come round to the start: the loop stops in front of the largest
`int`, or the list is over before. -/
def Uncycled (n start stop : Int) : Prop := stop < 2 ^ 31 - 1 ∨ n ≤ 2 ^ 32 + start

instance (n start stop : Int) : Decidable (Uncycled n start stop) :=
  inferInstanceAs (Decidable (_ ∨ _))

variable {α : Type}

theorem length_slice (xs : List α) (a b : Nat) : ((xs.take b).drop a).length = min b xs.length - a := by
  rw [List.length_drop, List.length_take]

/-- They select equally many elements only if they select the same. -/
theorem slice_eq_selected_iff (xs : List α) (start stop : Int) {β : Type} {f : α → List β}
    {k : Nat} (pos : 0 < k) (width : ∀ x, (f x).length = k) :
    ((xs.take (stop + 1).toNat).drop start.toNat).flatMap f = (selected xs start stop).flatMap f ↔
      SameIndices xs.length start stop := by
  have lengths (l : List α) : (l.flatMap f).length = k * l.length := by
    rw [List.length_flatMap]
    simp [width, Nat.mul_comm]
  constructor
  · intro same
    have equal := congrArg List.length same
    rw [lengths, lengths, Nat.mul_right_inj pos.ne', selected, length_slice, length_slice] at equal
    unfold SameIndices firstIndex lastIndex resolve at *
    split_ifs at * <;> omega
  · intro same
    congr 1
    unfold selected
    rcases same with ⟨nonneg, front⟩ | ⟨negative, apart⟩
    · have first : (firstIndex xs.length start).toNat = start.toNat := by
        unfold firstIndex resolve
        split_ifs <;> omega
      have last : lastIndex xs.length stop = min ((xs.length : Int) - 1) stop := by
        rw [lastIndex, resolve, if_neg (by omega)]
      rw [first, last]
      congr 1
      by_cases short : stop < xs.length
      · rw [min_eq_right (by omega)]
      · rw [List.take_of_length_le (by omega), List.take_of_length_le (by omega)]
    · have none : (stop + 1).toNat = 0 := by omega
      rw [none, List.take_zero, List.drop_nil, eq_comm, List.drop_eq_nil_iff, List.length_take]
      have last : lastIndex xs.length stop ≤ xs.length + stop := by
        rw [lastIndex, resolve, if_pos negative]
        exact min_le_right _ _
      omega

/-- What the loop of `range_by_rank` selects. -/
theorem intPositions_eq_selected_iff (xs : List α) {start stop : Int} (first : IsInt start)
    (last : IsInt stop) {β : Type} {f : α → List β} {k : Nat} (pos : 0 < k)
    (width : ∀ x, (f x).length = k) :
    (intPositions start stop 0 xs).flatMap f = (selected xs start stop).flatMap f ↔
      SameIndices xs.length start stop ∧ Uncycled xs.length start stop := by
  have upTo : stop ≤ 2 ^ 31 - 1 := by
    have := last.2
    omega
  by_cases plain : Uncycled xs.length start stop
  · rw [(intPositions_eq_iff first upTo xs).mpr plain, positions_eq_drop_take,
      ← slice_eq_selected_iff xs start stop pos width]
    simp [plain]
  · refine iff_of_false (fun same => ?_) (fun both => plain both.2)
    -- more elements come than there are positions, and the convention selects no more than those
    have equal := congrArg List.length same
    have lengths (l : List α) : (l.flatMap f).length = k * l.length := by
      rw [List.length_flatMap]
      simp [width, Nat.mul_comm]
    rw [lengths, lengths, Nat.mul_right_inj pos.ne'] at equal
    have sub : (positions start stop 0 xs).Sublist _ := positions_sublist upTo xs
    have fewer : (selected xs start stop).length ≤ (positions start stop 0 xs).length := by
      unfold Uncycled at plain
      rw [positions_eq_drop_take, selected, length_slice, length_slice]
      unfold firstIndex lastIndex resolve
      split_ifs <;> omega
    have all := sub.eq_of_length (le_antisymm sub.length_le (equal ▸ fewer))
    exact plain ((intPositions_eq_iff first upTo xs).mp all.symm)

section
variable {W D : Type} [Zero W] [One W] [Add W] [LT W] [DecidableLT W]
variable [Inhabited D] [BEq D] [LT D] [DecidableLT D] [LE D] [DecidableLE D]
variable (lib : FloatLib W D) (env : Env) {d : Dispatcher W D}
variable {word key num num' : Bytes} {rest : List Bytes} {start stop : Int}

/-- What `ZRANGE` shows of an element: the member, and its score behind `WITHSCORES`. -/
def shown (rest : List Bytes) (r : D × Bytes) : List Bytes :=
  r.2 :: (if 1 ≤ rest.length ∧ toUpper (arg rest 0) = str "WITHSCORES" then
    [lib.doubleToString r.1] else [])

theorem dispatch_zrange (named : toUpper word = str "ZRANGE") (readStart : stoi num = .ok start)
    (readStop : stoi num' = .ok stop) {es : List (D × Bytes)}
    (called : d.zsets.zrange key start stop = some es) :
    dispatch lib env d (word :: key :: num :: num' :: rest) =
      Outcome.returned (d, array (es.flatMap (shown lib rest))) := by
  have mem : (⟨str "ZRANGE", (4 ≤ ·), zrange lib⟩ : Branch (Action W D Bytes)) ∈
      branches lib env .zset := by
    simp [branches, zsetBranches]
  unfold dispatch
  rw [answer_taken lib env mem (show str "ZRANGE" ∉ Handler.persistent by decide)
    named (by simp)]
  have asked : (askZsets fun z => z.zrange key start stop : Action W D (List (D × Bytes))).outcome
      d = Outcome.returned (d, es) := by
    rw [askZsets, outcome_ask, called]
    rfl
  have body : (zrange lib (word :: key :: num :: num' :: rest) : Action W D Bytes).outcome d =
      Outcome.returned (d, array (es.flatMap (shown lib rest))) := by
    change (number .stoi (stoi num) >>= _ : Action W D Bytes).outcome d = _
    rw [outcome_bind (outcome_number readStart)]
    change (number .stoi (stoi num') >>= _ : Action W D Bytes).outcome d = _
    rw [outcome_bind (outcome_number readStop)]
    have words : (5 ≤ (word :: key :: num :: num' :: rest).length ∧
        toUpper (arg (word :: key :: num :: num' :: rest) 4) = str "WITHSCORES") ↔
        1 ≤ rest.length ∧ toUpper (arg rest 0) = str "WITHSCORES" := by
      simp [arg]
    refine Eq.trans (outcome_bind asked) ?_
    simp only [words]
    rfl
  exact outcome_tryCatch body

/-- `ZRANGE` answers with the elements that the convention selects from those of the list. They are
as many as `ZCARD` says, and with scores in an order `SortedSetEngine.elements_eq` has them ascending
by score and member, so that their positions are their ranks. -/
def FollowsConvention (d : Dispatcher W D) (word key num num' : Bytes) (rest : List Bytes)
    (start stop : Int) : Prop :=
  ∃ xs, (d.zsets.getOrCreate key).elements = some xs ∧
    (xs.length : Int) = d.zsets.zcard key ∧
    dispatch lib env d (word :: key :: num :: num' :: rest) =
      Outcome.returned (d, array ((selected xs start stop).flatMap (shown lib rest)))

/-- `ZRANGE` follows the convention exactly if the numbers select the same as they are and no element
behind the largest `int` comes round to them. -/
theorem zrange_convention_iff (calls : List (SortedSetEngine.Call D))
    (reached : SortedSetEngine.after calls .empty = some d.zsets)
    (named : toUpper word = str "ZRANGE") (readStart : stoi num = .ok start)
    (readStop : stoi num' = .ok stop) :
    FollowsConvention lib env d word key num num' rest start stop ↔
      SameIndices (d.zsets.zcard key) start stop ∧ Uncycled (d.zsets.zcard key) start stop := by
  have kept := SortedSetEngine.kept_empty.after calls reached
  obtain ⟨xs, whole, count, ranged⟩ := kept.elements key
  obtain ⟨k, pos, width⟩ : ∃ k, 0 < k ∧ ∀ r : D × Bytes, (shown lib rest r).length = k := by
    by_cases scores : 1 ≤ rest.length ∧ toUpper (arg rest 0) = str "WITHSCORES"
    · exact ⟨2, by decide, fun r => by rw [shown, if_pos scores]; rfl⟩
    · exact ⟨1, by decide, fun r => by rw [shown, if_neg scores]; rfl⟩
  have answered : dispatch lib env d (word :: key :: num :: num' :: rest) = _ :=
    dispatch_zrange lib env named readStart readStop (ranged start stop)
  rw [← count, ← intPositions_eq_selected_iff xs (isInt_of_stoi readStart) (isInt_of_stoi readStop) pos
    width]
  unfold FollowsConvention
  rw [answered]
  simp only [whole, Option.some.injEq, exists_eq_left', count, true_and, Outcome.returned_inj,
    Prod.mk.injEq]
  exact array_injective.eq_iff

end

/-- The last element of a set of one. -/
theorem zrange_convention_iff_single :
    ∃ z, SortedSetEngine.after [.zadd (str "k") [] 1 (str "a")] .empty = some z ∧
      (FollowsConvention wholeLib calmEnv { fresh with zsets := z } (str "zrange") (str "k")
          (str "-1") (str "0") [] (-1) 0 ↔
        SameIndices (SortedSetEngine.zcard z (str "k")) (-1) 0 ∧
          Uncycled (SortedSetEngine.zcard z (str "k")) (-1) 0) :=
  ⟨_, rfl, zrange_convention_iff wholeLib calmEnv (d := { fresh with zsets := _ })
    [.zadd (str "k") [] 1 (str "a")] rfl (by decide) (by decide)
    (by decide)⟩

/-- Reading a whole set by the indices `0` and `-1` yields nothing. -/
theorem zrange_ignores_negative :
    ∃ d, dispatch wholeLib calmEnv fresh [str "ZADD", str "k", str "1", str "a"] =
        Outcome.returned (d, integer 1) ∧
      dispatch wholeLib calmEnv d [str "ZRANGE", str "k", str "0", str "-1"] =
        Outcome.returned (d, emptyArray) ∧
      ¬ FollowsConvention wholeLib calmEnv d (str "ZRANGE") (str "k") (str "0") (str "-1") [] 0
        (-1) := by
  refine ⟨_, rfl, rfl, ?_⟩
  intro ⟨xs, whole, count, answered⟩
  cases whole
  cases answered

end FastGraph.Dispatcher
