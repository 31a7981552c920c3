import FastGraph.Misc.Vector

/-!
# Elements sorted into consecutive ranges

Each element of a list has a key, and the elements of one key go, in order, into a range of
slots of their own. The ranges lie one after the other: a range starts at the sum of the
sizes of the ranges before it, and together they cover every slot up to the sum of all.
-/

namespace FastGraph.Buckets
variable {α ε : Type}

/-- The elements with a key. -/
def bucket (xs : List (Nat × ε)) (key : Nat) : List ε := (xs.filter (·.1 = key)).map Prod.snd

theorem bucket_append (xs ys : List (Nat × ε)) (key : Nat) :
    bucket (xs ++ ys) key = bucket xs key ++ bucket ys key := by
  rw [bucket, List.filter_append, List.map_append]
  rfl

theorem bucket_snoc (xs : List (Nat × ε)) (x : Nat × ε) (key : Nat) :
    bucket (xs ++ [x]) key = bucket xs key ++ if x.1 = key then [x.2] else [] := by
  rw [bucket_append]
  congr 1
  unfold bucket
  split
  · rename_i same
    simp [same]
  · rename_i other
    simp [other]

/-- One more summand. -/
theorem sum_take_succ {M : Type} [AddMonoid M] {l : List M} {i : Nat} {d : M}
    (here : l[i]? = some d) : (l.take (i + 1)).sum = (l.take i).sum + d := by
  rw [List.take_add_one, here, List.sum_append]
  simp

/-- Where the range of a key starts. -/
def start (sizes : List Nat) (key : Nat) : Nat := (sizes.take key).sum

theorem start_succ {sizes : List Nat} {key size : Nat} (here : sizes[key]? = some size) :
    start sizes (key + 1) = start sizes key + size :=
  sum_take_succ here

theorem start_length (sizes : List Nat) : start sizes sizes.length = sizes.sum := by
  rw [start, List.take_length]

theorem start_mono (sizes : List Nat) {key key' : Nat} (before : key ≤ key') :
    start sizes key ≤ start sizes key' := by
  unfold start
  obtain ⟨d, rfl⟩ := Nat.exists_eq_add_of_le before
  rw [List.take_add, List.sum_append]
  exact Nat.le_add_right _ _

theorem start_le_sum (sizes : List Nat) (key : Nat) : start sizes key ≤ sizes.sum := by
  unfold start
  conv_rhs => rw [← List.take_append_drop key sizes, List.sum_append]
  exact Nat.le_add_right _ _

/-- A range ends before the sum of all sizes. -/
theorem start_add_le {sizes : List Nat} {key size : Nat} (here : sizes[key]? = some size) :
    start sizes key + size ≤ sizes.sum := by
  rw [← start_succ here]
  exact start_le_sum sizes (key + 1)

/-- Ranges of different keys have no slot in common. -/
theorem apart {sizes : List Nat} {key key' size size' j j' : Nat} (here : sizes[key]? = some size)
    (there : sizes[key']? = some size') (inside : j < size) (inside' : j' < size')
    (differ : key ≠ key') : start sizes key + j ≠ start sizes key' + j' := by
  have ends := start_succ here
  have ends' := start_succ there
  rcases Nat.lt_or_gt_of_ne differ with before | after
  · have next : start sizes (key + 1) ≤ start sizes key' := start_mono sizes before
    omega
  · have next : start sizes (key' + 1) ≤ start sizes key := start_mono sizes after
    omega

/-- Every slot lies in a range. -/
theorem covered {sizes : List Nat} {k : Nat} (inside : k < sizes.sum) :
    ∃ key size, sizes[key]? = some size ∧ start sizes key ≤ k ∧ k < start sizes key + size := by
  induction sizes generalizing k with
  | nil => simp at inside
  | cons size sizes ih =>
    rw [List.sum_cons] at inside
    by_cases first : k < size
    · exact ⟨0, size, rfl, Nat.zero_le _, by rw [start, List.take_zero, List.sum_nil]; omega⟩
    · obtain ⟨key, size', here, low, high⟩ := ih (k := k - size) (by omega)
      refine ⟨key + 1, size', here, ?_, ?_⟩ <;>
      · rw [start, List.take_succ_cons, List.sum_cons]
        unfold start at low high
        omega

/-- The values of the elements are in the slots of their keys, in order. -/
def Placed (sizes : List Nat) (xs : List (Nat × ε)) (value : ε → α) (v : List α) : Prop :=
  ∀ key j e, (bucket xs key)[j]? = some e →
    vget v ((start sizes key + j : Nat) : Int) = some (value e)

theorem placed_nil (sizes : List Nat) (value : ε → α) (v : List α) : Placed sizes [] value v := by
  intro key j e here
  simp [bucket] at here

/-- Writing one more element behind the earlier ones of its key. -/
theorem Placed.snoc {sizes : List Nat} {xs : List (Nat × ε)} {x : Nat × ε} {value : ε → α}
    {v v' : List α} (placed : Placed sizes xs value v)
    (within : ∀ key, bucket (xs ++ [x]) key ≠ [] →
      ∃ size, sizes[key]? = some size ∧ (bucket (xs ++ [x]) key).length ≤ size)
    (stored : vset v ((start sizes x.1 + (bucket xs x.1).length : Nat) : Int) (value x.2) = some v') :
    Placed sizes (xs ++ [x]) value v' := by
  intro key j e here
  have inside := (List.getElem?_eq_some_iff.mp here).1
  have nonempty : bucket (xs ++ [x]) key ≠ [] := List.ne_nil_of_length_pos (by omega)
  obtain ⟨size, listed, fits⟩ := within key nonempty
  have longer := bucket_snoc xs x x.1
  rw [if_pos rfl] at longer
  obtain ⟨size', listed', fits'⟩ := within x.1 (by rw [longer]; simp)
  rw [longer, List.length_append, List.length_singleton] at fits'
  rw [vget_vset stored]
  by_cases same : x.1 = key
  · subst same
    rw [longer] at here
    rcases getElem?_concat_cases here with ⟨before, old⟩ | ⟨rfl, rfl⟩
    · rw [if_neg (by omega)]
      exact placed x.1 j e old
    · rw [if_pos rfl]
  · have old := bucket_snoc xs x key
    rw [if_neg same, List.append_nil] at old
    have elsewhere := apart listed listed' (j := j) (by omega) (Nat.lt_of_succ_le fits') (Ne.symm same)
    rw [if_neg (by omega)]
    rw [old] at here
    exact placed key j e here

end FastGraph.Buckets
