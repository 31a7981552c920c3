import FastGraph.Misc.UnorderedMap

/-!
# Adjacency maps as multisets of arcs

A map from nodes to lists is the multiset of its pairs of a node and an element of its
list. Counting, filtering and cardinalities of that multiset are what is known about the
lists when their order is forgotten.
-/

namespace FastGraph.Adjacency
variable {K E : Type}

/-- The arcs of a map. -/
def arcs (m : UnorderedMap K (List E)) : Multiset (K × E) :=
  (UnorderedMap.toList m).flatMap fun r => r.2.map fun e => (r.1, e)

/-- The sum of the lengths of the lists. -/
def total (m : UnorderedMap K (List E)) : Nat :=
  ((UnorderedMap.toList m).map fun r => r.2.length).sum

theorem card_arcs (m : UnorderedMap K (List E)) : (arcs m).card = total m := by
  simp [arcs, total, List.length_flatMap]

section
variable [DecidableEq K]

/-- The list of a node. -/
def row (m : UnorderedMap K (List E)) (a : K) : List E := (UnorderedMap.find m a).getD []

theorem row_set (m : UnorderedMap K (List E)) (a b : K) (es : List E) :
    row (UnorderedMap.set m a es) b = if b = a then es else row m b := by
  unfold row
  rw [UnorderedMap.find_set]
  split <;> rfl

theorem row_erase (m : UnorderedMap K (List E)) (a b : K) :
    row (UnorderedMap.erase m a) b = if b = a then [] else row m b := by
  unfold row
  rw [UnorderedMap.find_erase]
  split <;> rfl

@[simp] theorem row_empty (a : K) : row (∅ : UnorderedMap K (List E)) a = [] := rfl

variable [DecidableEq E]

/-- How often an arc from `b` occurs in the arcs of one list. -/
theorem count_map_mk (a b : K) (e : E) (es : List E) :
    (es.map fun e => (b, e) : Multiset (K × E)).count (a, e) = if a = b then es.count e else 0 := by
  split
  · rename_i same
    subst same
    rw [← Multiset.map_coe, Multiset.count_map_eq_count' _ _ (Prod.mk_right_injective a),
      Multiset.coe_count]
  · rename_i differ
    rw [Multiset.count_eq_zero, Multiset.mem_coe, List.mem_map]
    rintro ⟨e', -, pair⟩
    exact differ (Prod.ext_iff.mp pair).1.symm

theorem count_flatMap_rows (rows : List (K × List E)) (distinct : (rows.map Prod.fst).Nodup)
    (a : K) (e : E) :
    (a ∉ rows.map Prod.fst →
      (rows.flatMap fun r => r.2.map fun e => (r.1, e) : Multiset (K × E)).count (a, e) = 0) ∧
    ∀ es, (a, es) ∈ rows →
      (rows.flatMap fun r => r.2.map fun e => (r.1, e) : Multiset (K × E)).count (a, e) =
        es.count e := by
  induction rows with
  | nil => simp
  | cons r rows ih =>
    rw [List.map_cons, List.nodup_cons] at distinct
    obtain ⟨missing, present⟩ := ih distinct.2
    rw [List.flatMap_cons, ← Multiset.coe_add, Multiset.count_add, count_map_mk]
    constructor
    · intro absent
      rw [List.map_cons, List.mem_cons, not_or] at absent
      rw [if_neg absent.1, missing absent.2]
    · intro es mem
      rcases List.mem_cons.mp mem with rfl | later
      · rw [if_pos rfl, missing distinct.1, Nat.add_zero]
      · have differ : a ≠ r.1 := by
          rintro rfl
          exact distinct.1 (List.mem_map.mpr ⟨(r.1, es), later, rfl⟩)
        rw [if_neg differ, present es later, Nat.zero_add]

/-- An arc occurs as often as its element in the list of its node. -/
theorem count_arcs (m : UnorderedMap K (List E)) (a : K) (e : E) :
    (arcs m).count (a, e) = (row m a).count e := by
  obtain ⟨missing, present⟩ :=
    count_flatMap_rows (UnorderedMap.toList m) (UnorderedMap.nodup_keys m) a e
  unfold arcs row
  cases found : UnorderedMap.find m a with
  | none =>
    rw [missing]
    · simp
    · rw [UnorderedMap.map_fst_toList]
      exact (UnorderedMap.find_eq_none_iff m a).mp found
  | some es =>
    rw [present es (UnorderedMap.mem_toList.mpr found)]
    rfl

/-- The arcs are determined by the counts in the lists. -/
theorem arcs_eq_iff {m : UnorderedMap K (List E)} {S : Multiset (K × E)} :
    arcs m = S ↔ ∀ a e, (row m a).count e = S.count (a, e) := by
  constructor
  · rintro rfl a e
    rw [count_arcs]
  · intro same
    apply Multiset.ext.mpr
    rintro ⟨a, e⟩
    rw [count_arcs, same]

theorem arcs_congr {m m' : UnorderedMap K (List E)} (same : ∀ a, row m a = row m' a) :
    arcs m = arcs m' := by
  rw [arcs_eq_iff]
  intro a e
  rw [same, count_arcs]

/-- The arcs from a node that satisfy `p` are the elements of its list that do. -/
theorem filter_arcs_eq (m : UnorderedMap K (List E)) (a : K) (p : E → Bool) :
    (arcs m).filter (fun x => x.1 = a ∧ p x.2) =
      (((row m a).filter p).map fun e => (a, e) : List (K × E)) := by
  apply Multiset.ext.mpr
  rintro ⟨b, e⟩
  rw [Multiset.count_filter, count_map_mk, count_arcs]
  by_cases same : b = a
  · subst same
    cases holds : p e with
    | true => simp [holds, List.count_filter]
    | false =>
      rw [if_neg (by simp), if_pos rfl]
      exact (List.count_eq_zero.mpr (by simp [List.mem_filter, holds])).symm
  · rw [if_neg (by simp [same]), if_neg same]

/-- How many arcs from a node satisfy `p`. -/
theorem card_filter_arcs (m : UnorderedMap K (List E)) (a : K) (p : E → Bool) :
    ((arcs m).filter fun x => x.1 = a ∧ p x.2).card = (row m a).countP p := by
  rw [filter_arcs_eq, Multiset.coe_card, List.length_map, List.countP_eq_length_filter]

/-- Erasing a node takes its arcs away. -/
theorem arcs_erase (m : UnorderedMap K (List E)) (a : K) :
    arcs (UnorderedMap.erase m a) = (arcs m).filter (·.1 ≠ a) := by
  rw [arcs_eq_iff]
  intro b e
  rw [row_erase, Multiset.count_filter, count_arcs]
  by_cases same : b = a <;> simp [same]

/-- Appending to the list of a node adds an arc. -/
theorem arcs_set_append (m : UnorderedMap K (List E)) (a : K) (e : E) :
    arcs (UnorderedMap.set m a (row m a ++ [e])) = (a, e) ::ₘ arcs m := by
  rw [arcs_eq_iff]
  intro b e'
  rw [row_set, Multiset.count_cons, count_arcs]
  by_cases same : b = a
  · subst same
    rw [if_pos rfl, List.count_append]
    by_cases here : e' = e
    · simp [here]
    · have there : e ≠ e' := fun h => here h.symm
      simp [here, there]
  · simp [same]

/-- Filtering the list of a node filters its arcs. -/
theorem arcs_set_filter (m : UnorderedMap K (List E)) (a : K) (p : E → Bool) :
    arcs (UnorderedMap.set m a ((row m a).filter fun e => !p e)) =
      (arcs m).filter fun x => ¬ (x.1 = a ∧ p x.2) := by
  rw [arcs_eq_iff]
  intro b e
  rw [row_set, Multiset.count_filter, count_arcs]
  by_cases same : b = a
  · subst same
    cases holds : p e with
    | true =>
      simp only [if_true, true_and, not_true_eq_false, if_false]
      exact List.count_eq_zero.mpr (by simp [List.mem_filter, holds])
    | false => simp [holds, List.count_filter]
  · simp [same]

/-- Filtering every list filters the arcs. -/
theorem arcs_of_rows_filter {m m' : UnorderedMap K (List E)} {p : E → Bool}
    (rows : ∀ a, row m' a = (row m a).filter p) :
    arcs m' = (arcs m).filter fun x => p x.2 := by
  rw [arcs_eq_iff]
  intro a e
  rw [rows, Multiset.count_filter, count_arcs]
  cases holds : p e with
  | true => simp [List.count_filter, holds]
  | false =>
    rw [if_neg (by simp)]
    exact List.count_eq_zero.mpr (by simp [List.mem_filter, holds])

end

end FastGraph.Adjacency
