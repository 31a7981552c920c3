import FastGraph.Misc.Bytes

/-!
# Ranks

The rank of an element among others is the number of smaller ones. In a strictly ascending
list ranks are positions, so selections by position, by a bound or by the first match are
selections by rank or by value, and two such lists with the same elements are equal.
-/

namespace FastGraph.Ranking
/-- The elements at the positions from `start` to `stop`, where the first one is at `idx`. -/
def positions {α : Type} (start stop : Int) : Int → List α → List α
  | _, [] => []
  | idx, x :: xs =>
    if idx ≤ stop then
      if start ≤ idx then x :: positions start stop (idx + 1) xs
      else positions start stop (idx + 1) xs
    else []

variable {α : Type} [LinearOrder α] {xs ys : List α} {x y : α}

/-- How many elements are smaller than `x`. -/
def rank (xs : List α) (x : α) : Nat := xs.countP (· < x)

/-- The elements in ascending order. -/
def ascending (xs : List α) : List α := xs.mergeSort (· ≤ ·)

/-- Strictly ascending. -/
def Ascending (xs : List α) : Prop := xs.Pairwise (· < ·)

theorem Ascending.nodup (asc : Ascending xs) : xs.Nodup := asc.imp ne_of_lt

theorem rank_perm (same : xs.Perm ys) (x : α) : rank xs x = rank ys x := same.countP_eq _

theorem sorted_ascending (xs : List α) : (ascending xs).Pairwise (· ≤ ·) := by
  have result : (ascending xs).Pairwise fun a b => decide (a ≤ b) = true :=
    List.pairwise_mergeSort (by simpa using fun a b c => le_trans) (by simpa using le_total) xs
  exact result.imp (by simp)

/-- A strictly ascending list is the ascending arrangement of its elements. -/
theorem Ascending.ascending_eq (asc : Ascending xs) (same : xs.Perm ys) : ascending ys = xs := by
  have perm : (ascending ys).Perm xs := (List.mergeSort_perm ys _).trans same.symm
  exact perm.eq_of_pairwise (fun a b _ _ => le_antisymm) (sorted_ascending ys) (asc.imp le_of_lt)

/-- The ascending arrangement of distinct elements is strictly ascending. -/
theorem ascending_strict (distinct : xs.Nodup) : Ascending (ascending xs) := by
  have apart : (ascending xs).Pairwise (· ≠ ·) := (List.mergeSort_perm xs _).nodup_iff.mpr distinct
  exact ((sorted_ascending xs).and apart).imp fun both => lt_of_le_of_ne both.1 both.2

theorem mem_ascending : x ∈ ascending xs ↔ x ∈ xs := (List.mergeSort_perm xs _).mem_iff

theorem rank_head (asc : Ascending (x :: xs)) : rank (x :: xs) x = 0 := by
  rw [rank, List.countP_eq_zero]
  intro y mem
  rcases List.mem_cons.mp mem with rfl | later
  · simp
  · simpa using (List.rel_of_pairwise_cons asc later).le

theorem rank_tail (asc : Ascending (x :: xs)) (mem : y ∈ xs) :
    rank (x :: xs) y = rank xs y + 1 := by
  have first := List.rel_of_pairwise_cons asc mem
  simp [rank, first]

/-- Positions are ranks. -/
theorem positions_eq (asc : Ascending xs) (start stop idx : Int) :
    positions start stop idx xs =
      xs.filter fun x => start ≤ idx + rank xs x ∧ idx + rank xs x ≤ stop := by
  induction xs generalizing idx with
  | nil => rfl
  | cons x xs ih =>
    have rest : xs.filter (fun y => start ≤ idx + rank (x :: xs) y ∧
        idx + rank (x :: xs) y ≤ stop) = positions start stop (idx + 1) xs := by
      rw [ih asc.of_cons]
      apply List.filter_congr
      intro y mem
      rw [rank_tail asc mem]
      simp only [Nat.cast_add, Nat.cast_one, decide_eq_decide]
      omega
    rw [List.filter_cons, rest, rank_head asc, positions]
    simp only [Nat.cast_zero, add_zero, decide_eq_true_eq]
    by_cases low : start ≤ idx
    · by_cases high : idx ≤ stop
      · simp [low, high]
      · -- beyond `stop` the source breaks off, and every later position is beyond it, too
        have none : positions start stop (idx + 1) xs = [] := by
          cases xs with
          | nil => rfl
          | cons y xs => rw [positions, if_neg (by omega)]
        simp [low, high, none]
    · by_cases high : idx ≤ stop
      · simp [low, high]
      · have none : positions start stop (idx + 1) xs = [] := by
          cases xs with
          | nil => rfl
          | cons y xs => rw [positions, if_neg (by omega)]
        simp [low, high, none]

omit [LinearOrder α] in
/-- The positions from `start` to `stop` are a slice. -/
theorem positions_eq_drop_take (start stop idx : Int) (xs : List α) :
    positions start stop idx xs =
      (xs.take (stop + 1 - idx).toNat).drop (start - idx).toNat := by
  induction xs generalizing idx with
  | nil => simp [positions]
  | cons x xs ih =>
    rw [positions, ih]
    by_cases high : idx ≤ stop
    · have more : (stop + 1 - idx).toNat = (stop + 1 - (idx + 1)).toNat + 1 := by omega
      rw [if_pos high, more, List.take_succ_cons]
      by_cases low : start ≤ idx
      · have first : (start - idx).toNat = 0 := by omega
        have first' : (start - (idx + 1)).toNat = 0 := by omega
        rw [if_pos low, first, first', List.drop_zero, List.drop_zero]
      · have later : (start - idx).toNat = (start - (idx + 1)).toNat + 1 := by omega
        rw [if_neg low, later, List.drop_succ_cons]
    · have none : (stop + 1 - idx).toNat = 0 := by omega
      rw [if_neg high, none, List.take_zero, List.drop_nil]

/-- A test that only small elements pass takes a beginning of the list. -/
theorem takeWhile_eq_filter (asc : Ascending xs) (p : α → Bool)
    (down : ∀ x y, x < y → p y = true → p x = true) : xs.takeWhile p = xs.filter p := by
  induction xs with
  | nil => rfl
  | cons x xs ih =>
    rw [List.takeWhile_cons, List.filter_cons, ih asc.of_cons]
    cases passes : p x with
    | true => rfl
    | false =>
      rw [if_neg (by simp), if_neg (by simp)]
      symm
      rw [List.filter_eq_nil_iff]
      intro y mem holds
      rw [down x y (List.rel_of_pairwise_cons asc mem) holds] at passes
      cases passes

/-- The first match of the test that only `x` passes is at the rank of `x`. -/
theorem findIdx?_eq_rank (asc : Ascending xs) (mem : x ∈ xs) (p : α → Bool)
    (only : ∀ y ∈ xs, p y = true ↔ y = x) : xs.findIdx? p = some (rank xs x) := by
  induction xs with
  | nil => cases mem
  | cons z xs ih =>
    rw [List.findIdx?_cons]
    by_cases here : z = x
    · subst here
      rw [if_pos ((only z (by simp)).mpr rfl), rank_head asc]
    · have later : x ∈ xs := (List.mem_cons.mp mem).resolve_left (Ne.symm here)
      rw [if_neg (fun passes => here ((only z (by simp)).mp passes)),
        ih asc.of_cons later fun y mem' => only y (by simp [mem']), rank_tail asc later]
      rfl

end FastGraph.Ranking
