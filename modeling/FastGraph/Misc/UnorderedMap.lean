import FastGraph.Misc.Bytes

/-!
# Hash maps of the standard library

`std::unordered_map` is an association list without repeated keys. Its order of iteration
is unspecified, so a loop over a map takes the order of that one loop as an argument.
-/

namespace FastGraph

/-- `std::unordered_map<K, V>`. -/
abbrev UnorderedMap (K V : Type) := AList (fun _ : K => V)

/-- The order in which one loop meets the elements of a hash map: any reordering of them. -/
structure IterOrder where
  permute : {α : Type} → List α → List α
  perm : ∀ {α : Type} (l : List α), (permute l).Perm l

/-- The order of the association list itself. -/
def IterOrder.asListed : IterOrder := ⟨fun l => l, fun l => List.Perm.refl l⟩

namespace UnorderedMap

variable {K V : Type} [DecidableEq K]

/-- `find`: the mapped value, if there is one. -/
def find (m : UnorderedMap K V) (k : K) : Option V := AList.lookup k m

/-- `m[k] = v`. -/
def set (m : UnorderedMap K V) (k : K) (v : V) : UnorderedMap K V := AList.insert k v m

/-- `erase`. -/
def erase (m : UnorderedMap K V) (k : K) : UnorderedMap K V := AList.erase k m

/-- `size`. -/
def size (m : UnorderedMap K V) : Nat := m.entries.length

/-- The elements. -/
def toList (m : UnorderedMap K V) : List (K × V) := m.entries.map fun e => (e.1, e.2)

variable (m : UnorderedMap K V) (k k' : K) (v v' : V)

@[simp] theorem find_empty : find (∅ : UnorderedMap K V) k = none := rfl

omit [DecidableEq K] in
@[simp] theorem size_empty : size (∅ : UnorderedMap K V) = 0 := rfl

omit [DecidableEq K] in
@[simp] theorem toList_empty : toList (∅ : UnorderedMap K V) = [] := rfl

theorem find_set : find (set m k v) k' = if k' = k then some v else find m k' := by
  unfold find set
  split
  · rename_i same
    rw [same, AList.lookup_insert]
  · rename_i other
    exact AList.lookup_insert_ne other

@[simp] theorem find_set_self : find (set m k v) k = some v := by simp [find_set]

theorem find_erase : find (erase m k) k' = if k' = k then none else find m k' := by
  unfold find erase
  split
  · rename_i same
    rw [same, AList.lookup_erase]
  · rename_i other
    exact AList.lookup_erase_ne other

@[simp] theorem find_erase_self : find (erase m k) k = none := by simp [find_erase]

variable {m k v}

theorem mem_toList : (k, v) ∈ toList m ↔ find m k = some v := by
  unfold toList find
  rw [← Option.mem_def, AList.mem_lookup_iff, List.mem_map]
  constructor
  · rintro ⟨⟨k', v'⟩, mem, same⟩
    cases same
    exact mem
  · intro mem
    exact ⟨⟨k, v⟩, mem, rfl⟩

variable (m k v)

omit [DecidableEq K] in
theorem map_fst_toList : (toList m).map Prod.fst = AList.keys m := by
  simp [toList, AList.keys, List.keys, Function.comp_def]

omit [DecidableEq K] in
theorem nodup_keys : ((toList m).map Prod.fst).Nodup := by
  rw [map_fst_toList]
  exact AList.keys_nodup m

omit [DecidableEq K] in
theorem size_eq_length_keys : size m = (AList.keys m).length := by
  simp [size, AList.keys, List.keys]

theorem find_eq_none_iff : find m k = none ↔ k ∉ AList.keys m := by
  unfold find
  rw [AList.lookup_eq_none, AList.mem_keys]

theorem size_erase : size (erase m k) = if (find m k).isSome then size m - 1 else size m := by
  rw [size_eq_length_keys, size_eq_length_keys, erase, AList.keys_erase]
  split
  · rename_i present
    rw [List.length_erase_of_mem]
    by_contra absent
    rw [(find_eq_none_iff m k).mpr absent] at present
    cases present
  · rename_i absent
    rw [List.erase_of_not_mem]
    exact (find_eq_none_iff m k).mp (by simpa using absent)

theorem size_set : size (set m k v) = if (find m k).isSome then size m else size m + 1 := by
  rw [size_eq_length_keys, set, AList.keys_insert, List.length_cons]
  have erased := size_erase m k
  rw [size_eq_length_keys, erase, AList.keys_erase] at erased
  rw [erased]
  split
  · rename_i present
    have pos : 0 < size m := by
      rw [size_eq_length_keys]
      by_contra none
      have empty : AList.keys m = [] := List.length_eq_zero_iff.mp (by omega)
      rw [(find_eq_none_iff m k).mpr (by simp [empty])] at present
      cases present
    omega
  · rfl

/-! ### Maps by their bindings -/

/-- The map binds what `B` does, `n` keys in all. -/
structure HasBindings (m : UnorderedMap K V) (B : K → V → Prop) (n : Nat) : Prop where
  binds : ∀ k v, B k v ↔ m.find k = some v
  size : n = m.size

section
variable {m : UnorderedMap K V} {B B' : K → V → Prop} {n n' : Nat} {key : K} {val : V} {flag : Bool}

/-- What finds the bindings finds what the map does. -/
theorem HasBindings.find (has : HasBindings m B n) {r : Option V}
    (found : ∀ v, r = some v ↔ B key v) : r = m.find key := by
  apply Option.ext
  intro v
  rw [found, has.binds]

/-- A call that binds a key and says whether it was new sets it in the map. -/
theorem HasBindings.set (has : HasBindings m B n) (isNew : flag = true ↔ ∀ v, ¬ B key v)
    (size : n' = if flag then n + 1 else n)
    (binds : ∀ k v, B' k v ↔ if k = key then v = val else B k v) :
    flag = (m.find key).isNone ∧ HasBindings (m.set key val) B' n' := by
  have fresh : flag = (m.find key).isNone := by
    rw [Bool.eq_iff_iff, isNew, Option.isNone_iff_eq_none]
    simp only [has.binds]
    exact Option.eq_none_iff_forall_ne_some.symm
  refine ⟨fresh, ?_, ?_⟩
  · intro k v
    rw [binds, find_set]
    split
    · simp [eq_comm]
    · exact has.binds k v
  · rw [size, size_set, fresh, has.size]
    cases m.find key <;> rfl

/-- A call that takes a key out and says whether it was there erases it from the map. -/
theorem HasBindings.erase (has : HasBindings m B n) (wasThere : flag = true ↔ ∃ v, B key v)
    (size : n' = if flag then n - 1 else n) (binds : ∀ k v, B' k v ↔ k ≠ key ∧ B k v) :
    flag = (m.find key).isSome ∧ HasBindings (m.erase key) B' n' := by
  have present : flag = (m.find key).isSome := by
    rw [Bool.eq_iff_iff, wasThere, Option.isSome_iff_exists]
    simp only [has.binds]
  refine ⟨present, ?_, ?_⟩
  · intro k v
    rw [binds, find_erase]
    split
    · rename_i same
      simp [same]
    · rename_i other
      simp [other, has.binds]
  · rw [size, size_erase, present, has.size]

end

end UnorderedMap

end FastGraph
