import FastGraph.Misc.Ranking

/-!
# Positions that are counted in `int`

A loop that numbers the elements of a list in an `int` numbers them rightly below `2 ^ 31`. Behind
that the numbers begin again at the smallest `int`, and a selection by number takes elements that are
not at the position.
-/

namespace FastGraph.Ranking

/-- As `positions`, with the position in an `int`. -/
def intPositions {α : Type} (start stop : Int) : Int → List α → List α
  | _, [] => []
  | idx, x :: xs =>
    if idx ≤ stop then
      if start ≤ idx then x :: intPositions start stop (toInt32 (idx + 1)) xs
      else intPositions start stop (toInt32 (idx + 1)) xs
    else []

variable {α : Type} {start stop idx : Int} {xs : List α}

theorem intPositions_map {β : Type} (f : α → β) (start stop idx : Int) (xs : List α) :
    intPositions start stop idx (xs.map f) = (intPositions start stop idx xs).map f := by
  induction xs generalizing idx with
  | nil => rfl
  | cons x xs ih =>
    simp only [List.map_cons, intPositions, ih]
    split
    · split <;> rfl
    · rfl

/-- A loop that stops in front of the largest `int` counts rightly. -/
theorem intPositions_eq_positions (fits : IsInt idx) (small : stop < 2 ^ 31 - 1)
    (xs : List α) : intPositions start stop idx xs = positions start stop idx xs := by
  induction xs generalizing idx with
  | nil => rfl
  | cons x xs ih =>
    rw [intPositions, positions]
    by_cases inside : idx ≤ stop
    · have low := fits.1
      have next : toInt32 (idx + 1) = idx + 1 := toInt32_of_range (by omega) (by omega)
      rw [next, ih (next ▸ toInt32_range _)]
    · rw [if_neg inside, if_neg inside]

/-! ### By number -/

/-- The elements of which the number passes the test. -/
def numbered (p : Nat → Bool) (k : Nat) (xs : List α) : List α :=
  ((xs.zipIdx k).filter fun x => p x.2).map Prod.fst

theorem numbered_cons (p : Nat → Bool) (k : Nat) (x : α) (xs : List α) :
    numbered p k (x :: xs) = if p k then x :: numbered p (k + 1) xs else numbered p (k + 1) xs := by
  unfold numbered
  rw [List.zipIdx_cons, List.filter_cons]
  split <;> rfl

theorem length_numbered (p : Nat → Bool) (k : Nat) (xs : List α) :
    (numbered p k xs).length = (List.range' k xs.length).countP p := by
  rw [numbered, List.length_map, ← List.countP_eq_length_filter, ← List.zipIdx_map_snd,
    List.countP_map]
  rfl

/-- A test that passes more numbers takes more. -/
theorem numbered_sublist {p q : Nat → Bool} (more : ∀ k, p k = true → q k = true) (xs : List α) :
    (numbered p 0 xs).Sublist (numbered q 0 xs) :=
  (List.monotone_filter_right _ fun _ => more _).map _

/-- It takes the same only if it passes no other number of an element. -/
theorem numbered_eq_iff {p q : Nat → Bool} (more : ∀ k, p k = true → q k = true) (xs : List α) :
    numbered q 0 xs = numbered p 0 xs ↔ ∀ k < xs.length, q k = true → p k = true := by
  constructor
  · intro same k inside passes
    have equal := congrArg List.length same
    simp only [length_numbered, List.countP_eq_length_filter] at equal
    have sub : ((List.range' 0 xs.length).filter p).Sublist ((List.range' 0 xs.length).filter q) :=
      List.monotone_filter_right _ fun _ => more _
    have mem : k ∈ (List.range' 0 xs.length).filter q :=
      List.mem_filter.mpr ⟨List.mem_range'_1.mpr ⟨by omega, by omega⟩, passes⟩
    rw [← sub.eq_of_length equal.symm] at mem
    exact (List.mem_filter.mp mem).2
  · intro no
    unfold numbered
    congr 1
    refine List.filter_congr fun x mem => ?_
    have inside := (List.mem_zipIdx' mem).1
    exact Bool.eq_iff_iff.mpr ⟨no x.2 inside, more x.2⟩

theorem positions_eq_numbered (k : Nat) (xs : List α) :
    positions start stop k xs = numbered (fun i => start ≤ i ∧ (i : Int) ≤ stop) k xs := by
  induction xs generalizing k with
  | nil => rfl
  | cons x xs ih =>
    rw [positions, numbered_cons, ← ih, Nat.cast_add, Nat.cast_one]
    by_cases inside : (k : Int) ≤ stop
    · simp [inside]
    · have none : positions start stop ((k : Int) + 1) xs = [] := by
        cases xs with
        | nil => rfl
        | cons y ys => rw [positions, if_neg (by omega)]
      simp [inside, none]

/-- A loop up to the largest `int` takes every element and asks for its number alone. -/
theorem intPositions_eq_numbered (k : Nat) (xs : List α) :
    intPositions start (2 ^ 31 - 1) (toInt32 k) xs =
      numbered (fun i => start ≤ toInt32 i) k xs := by
  induction xs generalizing k with
  | nil => rfl
  | cons x xs ih =>
    have high := (toInt32_range k).2
    have next : toInt32 (toInt32 k + 1) = toInt32 (k + 1 : Nat) := by
      rw [Nat.cast_add, Nat.cast_one, toInt32_toInt32_add]
    rw [intPositions, numbered_cons, if_pos (by omega), next, ih]
    simp only [decide_eq_true_eq]

/-- The number of an element. -/
theorem toInt32_natCast (k : Nat) :
    toInt32 k =
      if k % 2 ^ 32 < 2 ^ 31 then ((k % 2 ^ 32 : Nat) : Int)
      else ((k % 2 ^ 32 : Nat) : Int) - 2 ^ 32 := by
  unfold toInt32 wrapSigned
  rw [Int.bmod_def]
  split <;> split <;> omega

/-- What is at the positions is taken. -/
theorem positions_sublist (last : stop ≤ 2 ^ 31 - 1) (xs : List α) :
    (positions start stop 0 xs).Sublist (intPositions start stop 0 xs) := by
  by_cases small : stop < 2 ^ 31 - 1
  · rw [intPositions_eq_positions isInt_zero small]
  · obtain rfl : stop = 2 ^ 31 - 1 := by omega
    have first : positions start (2 ^ 31 - 1) (0 : Nat) xs = _ := positions_eq_numbered 0 xs
    have second : intPositions start (2 ^ 31 - 1) (toInt32 (0 : Nat)) xs = _ :=
      intPositions_eq_numbered 0 xs
    rw [Nat.cast_zero] at first second
    rw [first, show (0 : Int) = toInt32 0 from rfl, second]
    refine numbered_sublist (fun k passes => ?_) xs
    obtain ⟨low, high⟩ := of_decide_eq_true passes
    rw [decide_eq_true_eq, toInt32_of_range (by omega) (by omega)]
    exact low

/-- Nothing else is taken exactly if the loop stops in front of the largest `int` or the list ends
before a number comes round to `start`. -/
theorem intPositions_eq_iff (first : IsInt start) (last : stop ≤ 2 ^ 31 - 1) (xs : List α) :
    intPositions start stop 0 xs = positions start stop 0 xs ↔
      stop < 2 ^ 31 - 1 ∨ (xs.length : Int) ≤ 2 ^ 32 + start := by
  by_cases small : stop < 2 ^ 31 - 1
  · exact iff_of_true (intPositions_eq_positions isInt_zero small xs) (Or.inl small)
  · obtain rfl : stop = 2 ^ 31 - 1 := by omega
    obtain ⟨low, high⟩ := first
    have whole : positions start (2 ^ 31 - 1) (0 : Nat) xs = _ := positions_eq_numbered 0 xs
    have counted : intPositions start (2 ^ 31 - 1) (toInt32 (0 : Nat)) xs = _ :=
      intPositions_eq_numbered 0 xs
    rw [Nat.cast_zero] at whole counted
    rw [whole, show (0 : Int) = toInt32 0 from rfl, counted, numbered_eq_iff]
    · simp only [decide_eq_true_eq, small, false_or]
      constructor
      · intro only
        by_contra long
        have round : toInt32 (2 ^ 32 + start).toNat = start := by
          rw [toInt32_natCast]
          split <;> omega
        have := only (2 ^ 32 + start).toNat (by omega) (by rw [round])
        omega
      · intro short k inside passes
        rw [toInt32_natCast] at passes
        split at passes <;> omega
    · intro k passes
      obtain ⟨low, high⟩ := of_decide_eq_true passes
      rw [decide_eq_true_eq, toInt32_of_range (by omega) (by omega)]
      exact low

/-! ### A search -/

/-- What a search looks through that lists the elements up to the number of all of them and goes
along the list as far as its length, both as an `int`. -/
def searched (xs : List α) : List α :=
  (intPositions 0 (toInt32 xs.length) 0 xs).take
    (toInt32 (intPositions 0 (toInt32 xs.length) 0 xs).length).toNat

/-- How many of `n` elements that are. -/
def reach (n : Nat) : Nat :=
  if toInt32 n < 2 ^ 31 - 1 then (toInt32 n + 1).toNat
  else if n % 2 ^ 33 = 2 ^ 31 - 1 then n % 2 ^ 33
  else 0

/-- All of them if their number is an `int`. -/
theorem le_reach {n : Nat} (small : n < 2 ^ 31) : n ≤ reach n := by
  have same : toInt32 n = n := toInt32_of_range (by omega) (by omega)
  rw [reach, same]
  split
  · omega
  · rw [if_pos (by omega)]
    omega

/-- None if their number is a negative one. -/
theorem reach_eq_zero {n : Nat} (low : 2 ^ 31 ≤ n) (high : n < 2 ^ 32) : reach n = 0 := by
  have wraps : toInt32 n = n - 2 ^ 32 := by
    rw [toInt32_natCast, if_neg (by omega)]
    omega
  rw [reach, if_pos (by omega)]
  omega

/-- Half of the numbers are not negative. -/
theorem countP_toInt32 (n : Nat) :
    (List.range' 0 n).countP (fun i : Nat => 0 ≤ toInt32 i) =
      n / 2 ^ 32 * 2 ^ 31 + min (n % 2 ^ 32) (2 ^ 31) := by
  induction n with
  | zero => rfl
  | succ n ih =>
    rw [List.range'_1_concat, List.countP_append, ih, List.countP_singleton, Nat.zero_add]
    have sign : 0 ≤ toInt32 n ↔ n % 2 ^ 32 < 2 ^ 31 := by
      rw [toInt32_natCast]
      split <;> omega
    simp only [sign, decide_eq_true_eq]
    split <;> omega

/-- A loop from the first element to the largest `int` begins with the elements as they are. -/
theorem take_intPositions {j : Nat} (front : 0 ≤ idx) (short : idx + j ≤ 2 ^ 31) (xs : List α) :
    (intPositions 0 (2 ^ 31 - 1) idx xs).take j = xs.take j := by
  induction xs generalizing idx j with
  | nil => rfl
  | cons x xs ih =>
    cases j with
    | zero => rfl
    | succ j =>
      rw [intPositions, if_pos (by omega), if_pos front, List.take_succ_cons, List.take_succ_cons]
      congr 1
      by_cases last : j = 0
      · rw [last]
        rfl
      · rw [toInt32_of_range (by omega) (by omega)]
        exact ih (by omega) (by omega)

/-- A search looks through a beginning of the list. -/
theorem searched_eq (xs : List α) : searched xs = xs.take (reach xs.length) := by
  have high := (toInt32_range xs.length).2
  unfold searched reach
  by_cases small : toInt32 xs.length < 2 ^ 31 - 1
  · have listed : intPositions 0 (toInt32 xs.length) 0 xs =
        xs.take (toInt32 xs.length + 1).toNat := by
      rw [intPositions_eq_positions isInt_zero small, positions_eq_drop_take]
      simp
    have fits : toInt32 (min (toInt32 xs.length + 1).toNat xs.length : Nat) =
        (min (toInt32 xs.length + 1).toNat xs.length : Nat) :=
      toInt32_of_range (by omega) (by omega)
    rw [if_pos small, listed, List.length_take, fits, Int.toNat_natCast, List.take_take,
      min_eq_left (min_le_left _ _)]
    exact List.take_eq_take_min.symm
  · have last : toInt32 xs.length = 2 ^ 31 - 1 := by omega
    have residue : xs.length % 2 ^ 32 = 2 ^ 31 - 1 := by
      rw [toInt32_natCast] at last
      split at last <;> omega
    have total : (intPositions 0 (2 ^ 31 - 1) 0 xs).length =
        xs.length / 2 ^ 32 * 2 ^ 31 + (2 ^ 31 - 1) := by
      have counted : intPositions 0 (2 ^ 31 - 1) (toInt32 (0 : Nat)) xs = _ :=
        intPositions_eq_numbered 0 xs
      rw [show toInt32 ((0 : Nat) : Int) = 0 from rfl] at counted
      rw [counted, length_numbered, countP_toInt32]
      omega
    rw [if_neg small, last, total, toInt32_natCast]
    by_cases even : xs.length % 2 ^ 33 = 2 ^ 31 - 1
    · rw [if_pos even, if_pos (by omega), even]
      have whole : (xs.length / 2 ^ 32 * 2 ^ 31 + (2 ^ 31 - 1)) % 2 ^ 32 = 2 ^ 31 - 1 := by omega
      rw [whole, Int.toNat_natCast]
      exact take_intPositions le_rfl (by norm_num) xs
    · rw [if_neg even, if_neg (by omega)]
      have none : (((xs.length / 2 ^ 32 * 2 ^ 31 + (2 ^ 31 - 1)) % 2 ^ 32 : Nat) : Int) - 2 ^ 32 ≤ 0 := by
        omega
      rw [Int.toNat_of_nonpos none, List.take_zero, List.take_zero]

end FastGraph.Ranking
