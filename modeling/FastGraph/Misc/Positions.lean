import FastGraph.Misc.BinaryHeap

/-!
# Arrays that are indexed by key

An array of keyed values, given by the key and the value of each position in `0 .. n - 1`, with
an index from keys to positions. Exchanging two slots, putting one behind the others, taking
the last one out and writing a value each need an update of the index; the lemmas say which,
and what the array holds then.
-/

namespace FastGraph.Positions
open BinaryHeap

section
variable {K V : Type} {n a b : Nat} {key key' : Nat → K} {val val' : Nat → V}
  {find find' : K → Option Nat} {k : K} {v : V}

/-- Some position has the key `k` and the value `v`. -/
def Contains (n : Nat) (key : Nat → K) (val : Nat → V) (k : K) (v : V) : Prop :=
  ∃ i, i < n ∧ key i = k ∧ val i = v

/-- The index gives the position of each key, and no key has two positions. -/
def Locates (n : Nat) (key : Nat → K) (find : K → Option Nat) : Prop :=
  ∀ k i, find k = some i ↔ i < n ∧ key i = k

theorem Locates.inj (located : Locates n key find) {i j : Nat} (hi : i < n) (hj : j < n)
    (same : key i = key j) : i = j := by
  have one := (located _ i).mpr ⟨hi, rfl⟩
  have two := (located _ j).mpr ⟨hj, rfl⟩
  rw [same, two] at one
  exact (Option.some.inj one).symm

theorem Locates.find_of_lt (located : Locates n key find) {i : Nat} (hi : i < n) :
    find (key i) = some i :=
  (located _ i).mpr ⟨hi, rfl⟩

theorem Locates.ne_of_none (located : Locates n key find) (absent : find k = none) {i : Nat}
    (hi : i < n) : key i ≠ k := by
  intro same
  rw [(located k i).mpr ⟨hi, same⟩] at absent
  cases absent

/-- Only the positions of the array matter. -/
theorem Locates.congr (located : Locates n key find) (keys : ∀ i, i < n → key' i = key i) :
    Locates n key' find := by
  intro k i
  rw [located]
  refine and_congr_right fun hi => ?_
  rw [keys i hi]

theorem Contains.congr (keys : ∀ i, i < n → key' i = key i) (vals : ∀ i, i < n → val' i = val i) :
    Contains n key' val' k v ↔ Contains n key val k v := by
  refine exists_congr fun i => and_congr_right fun hi => ?_
  rw [keys i hi, vals i hi]

/-- Below the last position, or there. -/
theorem contains_succ : Contains (n + 1) key val k v ↔ Contains n key val k v ∨ key n = k ∧ val n = v := by
  constructor
  · intro ⟨i, hi, here⟩
    rcases Nat.lt_succ_iff_lt_or_eq.mp hi with less | rfl
    · exact Or.inl ⟨i, less, here⟩
    · exact Or.inr here
  · intro held
    rcases held with ⟨i, hi, here⟩ | here
    · exact ⟨i, Nat.lt_succ_of_lt hi, here⟩
    · exact ⟨n, Nat.lt_succ_self n, here⟩

/-! ### Exchanging two slots -/

theorem swap_lt (ha : a < n) (hb : b < n) (i : Nat) : Equiv.swap a b i < n ↔ i < n := by
  by_cases hia : i = a
  · subst hia
    rw [Equiv.swap_apply_left]
    exact iff_of_true hb ha
  by_cases hib : i = b
  · subst hib
    rw [Equiv.swap_apply_right]
    exact iff_of_true ha hb
  rw [Equiv.swap_apply_of_ne_of_ne hia hib]

/-- The array holds the same. -/
theorem contains_swapped (ha : a < n) (hb : b < n) :
    Contains n (swapped key a b) (swapped val a b) k v ↔ Contains n key val k v := by
  refine (Equiv.exists_congr_left (Equiv.swap a b)).trans (exists_congr fun i => ?_)
  simp only [swapped, Equiv.symm_swap, Equiv.swap_apply_self, swap_lt ha hb]

variable [DecidableEq K]

/-- The two keys change their positions. -/
theorem Locates.swap (located : Locates n key find) (ha : a < n) (hb : b < n)
    (finds : ∀ k, find' k = if k = key a then some b else if k = key b then some a else find k) :
    Locates n (swapped key a b) find' := by
  have moved : ∀ k, find' k = (find k).map (Equiv.swap a b) := by
    intro k
    rw [finds]
    by_cases isA : k = key a
    · rw [if_pos isA, isA, located.find_of_lt ha, Option.map_some, Equiv.swap_apply_left]
    rw [if_neg isA]
    by_cases isB : k = key b
    · rw [if_pos isB, isB, located.find_of_lt hb, Option.map_some, Equiv.swap_apply_right]
    rw [if_neg isB]
    cases found : find k with
    | none => rfl
    | some i =>
      obtain ⟨-, rfl⟩ := (located k i).mp found
      rw [Option.map_some, Equiv.swap_apply_of_ne_of_ne]
      · exact fun same => isA (by rw [same])
      · exact fun same => isB (by rw [same])
  intro k i
  rw [moved, ← swap_lt ha hb i]
  refine Iff.trans ?_ (located k (Equiv.swap a b i))
  rw [Option.map_eq_some_iff]
  constructor
  · rintro ⟨j, found, rfl⟩
    rwa [Equiv.swap_apply_self]
  · intro found
    exact ⟨_, found, Equiv.swap_apply_self a b i⟩

/-! ### The last slot -/

/-- A new key gets the position behind the others. -/
theorem Locates.push (located : Locates n key find) (absent : find k = none)
    (keys : ∀ i, i < n → key' i = key i) (last : key' n = k)
    (finds : ∀ k', find' k' = if k' = k then some n else find k') : Locates (n + 1) key' find' := by
  intro k' i
  rw [finds]
  by_cases same : k' = k
  · rw [if_pos same, same, Option.some.injEq]
    constructor
    · rintro rfl
      exact ⟨Nat.lt_succ_self n, last⟩
    · intro ⟨hi, here⟩
      rcases Nat.lt_succ_iff_lt_or_eq.mp hi with less | rfl
      · rw [keys i less] at here
        exact absurd here (located.ne_of_none absent less)
      · rfl
  · rw [if_neg same, located k' i]
    constructor
    · intro ⟨hi, here⟩
      exact ⟨Nat.lt_succ_of_lt hi, (keys i hi).trans here⟩
    · intro ⟨hi, here⟩
      rcases Nat.lt_succ_iff_lt_or_eq.mp hi with less | rfl
      · exact ⟨less, (keys i less).symm.trans here⟩
      · exact absurd (here.symm.trans last) same

/-- The last key loses its position. -/
theorem Locates.pop (located : Locates (n + 1) key find)
    (finds : ∀ k, find' k = if k = key n then none else find k) : Locates n key find' := by
  intro k i
  rw [finds]
  by_cases same : k = key n
  · rw [if_pos same, same]
    refine iff_of_false (by simp) ?_
    intro ⟨hi, here⟩
    have := located.inj (Nat.lt_succ_of_lt hi) (Nat.lt_succ_self n) here
    omega
  · rw [if_neg same, located k i]
    constructor
    · intro ⟨hi, here⟩
      rcases Nat.lt_succ_iff_lt_or_eq.mp hi with less | rfl
      · exact ⟨less, here⟩
      · exact absurd here.symm same
    · intro ⟨hi, here⟩
      exact ⟨Nat.lt_succ_of_lt hi, here⟩

omit [DecidableEq K] in
/-- The array holds what it held, but under another key. -/
theorem Locates.contains_pop (located : Locates (n + 1) key find) :
    Contains n key val k v ↔ k ≠ key n ∧ Contains (n + 1) key val k v := by
  rw [contains_succ]
  constructor
  · intro held
    refine ⟨?_, Or.inl held⟩
    rintro rfl
    obtain ⟨i, hi, same, -⟩ := held
    have := located.inj (Nat.lt_succ_of_lt hi) (Nat.lt_succ_self n) same
    omega
  · rintro ⟨other, held | ⟨same, -⟩⟩
    · exact held
    · exact absurd same.symm other

/-! ### Taking out any slot -/

/-- The last slot moves to the position that becomes free. -/
theorem Locates.remove (located : Locates (n + 1) key find) (ha : a < n)
    (finds : ∀ k, find' k = if k = key n then some a else if k = key a then none else find k) :
    Locates n (swapped key a n) find' := by
  have keys : key n ≠ key a := by
    intro same
    have := located.inj (Nat.lt_succ_self n) (Nat.lt_succ_of_lt ha) same
    omega
  refine (located.swap (Nat.lt_succ_of_lt ha) (Nat.lt_succ_self n) fun _ => rfl).pop ?_
  intro k
  rw [finds, swapped_right]
  by_cases isLast : k = key n
  · rw [if_pos isLast, isLast, if_neg keys, if_neg keys, if_pos rfl]
  · rw [if_neg isLast]
    split <;> rfl

omit [DecidableEq K] in
theorem Locates.contains_remove (located : Locates (n + 1) key find) (ha : a < n) :
    Contains n (swapped key a n) (swapped val a n) k v ↔ k ≠ key a ∧ Contains (n + 1) key val k v := by
  classical
  have moved := located.swap (Nat.lt_succ_of_lt ha) (Nat.lt_succ_self n) fun _ => rfl
  rw [moved.contains_pop, swapped_right, contains_swapped (Nat.lt_succ_of_lt ha) (Nat.lt_succ_self n)]

/-! ### Writing a value -/

/-- The key of the slot gets the value. -/
theorem Locates.contains_write (located : Locates n key find) (ha : a < n) (w : V)
    (vals : ∀ i, val' i = if i = a then w else val i) :
    Contains n key val' k v ↔ if k = key a then v = w else Contains n key val k v := by
  by_cases same : k = key a
  · rw [if_pos same, same]
    constructor
    · intro ⟨i, hi, here, value⟩
      rw [located.inj hi ha here, vals, if_pos rfl] at value
      exact value.symm
    · rintro rfl
      exact ⟨a, ha, rfl, by rw [vals, if_pos rfl]⟩
  · rw [if_neg same]
    refine exists_congr fun i => and_congr_right fun _ => and_congr_right fun here => ?_
    rw [vals, if_neg]
    rintro rfl
    exact same here.symm

end

end FastGraph.Positions
