import FastGraph.Misc.Exceptions
import FastGraph.Misc.Outcome

/-!
# Vectors with unchecked subscripts

A subscript outside a `std::vector` or an array is undefined behaviour, and so is signed
overflow; both are `none` here. A length comes from an `int`, and a negative one is a
`size_t` that no vector can have.
-/

namespace FastGraph

variable {α : Type}

/-- `v[i]` where it is read. -/
def vget (v : List α) (i : Int) : Option α := if 0 ≤ i then v[i.toNat]? else none

/-- `v[i] = a`. -/
def vset (v : List α) (i : Int) (a : α) : Option (List α) :=
  if 0 ≤ i ∧ i < v.length then some (v.set i.toNat a) else none

/-- `a + b` of two `int`s. -/
def intAdd (a b : Int) : Option Int :=
  if -2 ^ 31 ≤ a + b ∧ a + b < 2 ^ 31 then some (a + b) else none

/-- An index outside an array. -/
structure OutOfBounds where
  index : Int
  deriving DecidableEq, Repr

/-- `v[i]` where it is read, a wrong index being reported. -/
def aget (v : List α) (i : Int) : Outcome OutOfBounds α :=
  match vget v i with
  | some a => Outcome.returned a
  | none => Outcome.threw ⟨i⟩

/-- `v[i] = a`, a wrong index being reported. -/
def aset (v : List α) (i : Int) (a : α) : Outcome OutOfBounds (List α) :=
  match vset v i a with
  | some v' => Outcome.returned v'
  | none => Outcome.threw ⟨i⟩

/-- A new vector of `n` elements, by the function `call`. -/
def vnew (call : VectorCall) (n : Int) (a : α) : Outcome StdException (List α) :=
  if n < 0 then Outcome.threw (.length call) else Outcome.returned (List.replicate n.toNat a)

theorem vnew_eq_returned {call : VectorCall} {n : Int} {a : α} {v : List α} :
    vnew call n a = Outcome.returned v ↔ 0 ≤ n ∧ v = List.replicate n.toNat a := by
  unfold vnew
  split
  · rename_i negative
    simp [negative]
  · rename_i nonneg
    rw [Outcome.returned_inj, eq_comm]
    exact (and_iff_right (not_lt.mp nonneg)).symm

theorem intAdd_eq_some {a b c : Int} :
    intAdd a b = some c ↔ c = a + b ∧ -2 ^ 31 ≤ a + b ∧ a + b < 2 ^ 31 := by
  unfold intAdd
  split
  · rename_i fits
    rw [Option.some_inj, eq_comm]
    exact (and_iff_left fits).symm
  · rename_i overflow
    exact iff_of_false (by simp) fun both => overflow both.2

theorem vget_natCast (v : List α) (i : Nat) : vget v i = v[i]? := by
  simp [vget]

theorem vget_eq_some {v : List α} {i : Int} {a : α} :
    vget v i = some a ↔ 0 ≤ i ∧ v[i.toNat]? = some a := by
  unfold vget
  split
  · rename_i nonneg
    simp [nonneg]
  · rename_i negative
    simp [negative]

theorem vget_isSome {v : List α} {i : Int} : (vget v i).isSome ↔ 0 ≤ i ∧ i < v.length := by
  unfold vget
  split
  · rename_i nonneg
    simp only [isSome_getElem?, nonneg, true_and]
    omega
  · rename_i negative
    simp [negative]

theorem vset_of_inside {v : List α} {i : Int} (low : 0 ≤ i) (high : i < v.length) (a : α) :
    vset v i a = some (v.set i.toNat a) := if_pos ⟨low, high⟩

theorem vset_isSome {v : List α} {i : Int} (low : 0 ≤ i) (high : i < v.length) (a : α) :
    ∃ v', vset v i a = some v' := ⟨_, vset_of_inside low high a⟩

theorem vset_inside {v v' : List α} {i : Int} {a : α} (stored : vset v i a = some v') :
    0 ≤ i ∧ i < v.length := by
  unfold vset at stored
  split at stored
  · assumption
  · cases stored

/-- What a vector holds after one assignment. -/
theorem vget_vset {v v' : List α} {i : Int} {a : α} (stored : vset v i a = some v') (j : Int) :
    vget v' j = if j = i then some a else vget v j := by
  obtain ⟨low, high⟩ := vset_inside stored
  rw [vset_of_inside low high] at stored
  cases stored
  unfold vget
  by_cases nonneg : 0 ≤ j
  · rw [if_pos nonneg, if_pos nonneg, List.getElem?_set]
    by_cases same : j = i
    · rw [if_pos same, if_pos (by rw [same]), if_pos (by omega)]
    · rw [if_neg same, if_neg (by omega)]
  · rw [if_neg nonneg, if_neg nonneg, if_neg (by omega)]

theorem length_vset {v v' : List α} {i : Int} {a : α} (stored : vset v i a = some v') :
    v'.length = v.length := by
  obtain ⟨low, high⟩ := vset_inside stored
  rw [vset_of_inside low high] at stored
  cases stored
  exact List.length_set

theorem vget_replicate {n : Nat} {a : α} {i : Int} :
    vget (List.replicate n a) i = if 0 ≤ i ∧ i < n then some a else none := by
  unfold vget
  by_cases nonneg : 0 ≤ i
  · rw [if_pos nonneg, List.getElem?_replicate]
    by_cases inside : i < n
    · rw [if_pos (by omega), if_pos ⟨nonneg, inside⟩]
    · rw [if_neg (by omega), if_neg fun both => inside both.2]
  · rw [if_neg nonneg, if_neg fun both => nonneg both.1]

/-- Vectors that agree at every subscript. -/
theorem ext_vget {v w : List α} (same : ∀ i : Nat, vget v i = vget w i) : v = w := by
  apply List.ext_getElem?
  intro i
  rw [← vget_natCast, ← vget_natCast, same]

theorem aget_eq {v : List α} {i : Int} {a : α} (here : vget v i = some a) :
    aget v i = Outcome.returned a := by
  rw [aget, here]

theorem aget_eq_returned {v : List α} {i : Int} {a : α} :
    aget v i = Outcome.returned a ↔ vget v i = some a := by
  unfold aget
  cases vget v i <;> simp

theorem aget_outside {v : List α} {i : Int} (outside : ¬ (0 ≤ i ∧ i < v.length)) :
    aget v i = Outcome.threw ⟨i⟩ := by
  rw [← vget_isSome, Option.not_isSome_iff_eq_none] at outside
  rw [aget, outside]

theorem aset_eq {v v' : List α} {i : Int} {a : α} (stored : vset v i a = some v') :
    aset v i a = Outcome.returned v' := by
  rw [aset, stored]

theorem aset_eq_returned {v v' : List α} {i : Int} {a : α} :
    aset v i a = Outcome.returned v' ↔ vset v i a = some v' := by
  unfold aset
  cases vset v i a <;> simp

theorem aset_outside {v : List α} {i : Int} (outside : ¬ (0 ≤ i ∧ i < v.length)) (a : α) :
    aset v i a = Outcome.threw ⟨i⟩ := by
  rw [aset, vset, if_neg outside]

/-- An element of a list with one more behind the others. -/
theorem getElem?_concat_cases {xs : List α} {x y : α} {j : Nat} (here : (xs ++ [x])[j]? = some y) :
    j < xs.length ∧ xs[j]? = some y ∨ j = xs.length ∧ y = x := by
  by_cases last : j = xs.length
  · subst last
    rw [List.getElem?_concat_length, Option.some_inj] at here
    exact Or.inr ⟨rfl, here.symm⟩
  · have bound := (List.getElem?_eq_some_iff.mp here).1
    rw [List.length_append, List.length_singleton] at bound
    have before : j < xs.length := by omega
    rw [List.getElem?_append_left before] at here
    exact Or.inl ⟨before, here⟩

/-- A queue at the front of a vector gets one element more by an assignment behind it. -/
theorem vget_of_concat {β : Type} {f : α → β} {v v' : List β} {xs : List α} {x : α}
    (queued : ∀ (j : Nat) y, xs[j]? = some y → vget v j = some (f y))
    (stored : vset v xs.length (f x) = some v') (j : Nat) (y : α)
    (here : (xs ++ [x])[j]? = some y) : vget v' j = some (f y) := by
  rw [vget_vset stored]
  rcases getElem?_concat_cases here with ⟨before, old⟩ | ⟨rfl, rfl⟩
  · rw [if_neg (by omega)]
    exact queued j y old
  · rw [if_pos rfl]

/-- Different subscripts below a bound are not more than the bound. -/
theorem length_le_of_nodup {ids : List Int} {m : Int} (distinct : ids.Nodup)
    (inside : ∀ id ∈ ids, 0 ≤ id ∧ id < m) : ids.length ≤ m.toNat := by
  rw [← List.toFinset_card_of_nodup distinct]
  have among : ids.toFinset ⊆ Finset.Ico 0 m := by
    intro id mem
    exact Finset.mem_Ico.mpr (inside id (List.mem_toFinset.mp mem))
  calc ids.toFinset.card ≤ (Finset.Ico 0 m).card := Finset.card_le_card among
    _ = m.toNat := by rw [Int.card_Ico, Int.sub_zero]

/-- A loop that assigns to different elements, one in each iteration. -/
theorem foldlM_vset {ι : Type} (at_ : ι → Int) (value : ι → α) (is : List ι) {v : List α}
    (inside : ∀ x ∈ is, 0 ≤ at_ x ∧ at_ x < v.length) (distinct : (is.map at_).Nodup) :
    ∃ v', is.foldlM (fun v x => vset v (at_ x) (value x)) v = some v' ∧ v'.length = v.length ∧
      (∀ x ∈ is, vget v' (at_ x) = some (value x)) ∧
      ∀ i, i ∉ is.map at_ → vget v' i = vget v i := by
  induction is generalizing v with
  | nil => exact ⟨v, rfl, rfl, by simp, fun _ _ => rfl⟩
  | cons x is ih =>
    rw [List.map_cons, List.nodup_cons] at distinct
    obtain ⟨low, high⟩ := inside x (by simp)
    have stored := vset_of_inside low high (value x)
    have length := length_vset stored
    obtain ⟨v', ran, length', each, others⟩ := ih
      (fun y mem => by rw [length]; exact inside y (List.mem_cons_of_mem _ mem)) distinct.2
    refine ⟨v', ?_, length'.trans length, ?_, ?_⟩
    · rw [List.foldlM_cons, stored]
      exact ran
    · intro y mem
      rcases List.mem_cons.mp mem with rfl | later
      · rw [others _ distinct.1, vget_vset stored, if_pos rfl]
      · exact each y later
    · intro i absent
      rw [List.map_cons, List.mem_cons, not_or] at absent
      rw [others i absent.2, vget_vset stored, if_neg absent.1]

end FastGraph
