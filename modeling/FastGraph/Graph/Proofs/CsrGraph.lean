import FastGraph.Graph.Proofs.GraphEngine
import FastGraph.Misc.Buckets

/-!
# The compacted graph and the graph

What each part of `build_csr` does, loop by loop. The offsets count all edges of a node and
the filling loop writes those that end at a node, so the copy is right exactly if these are
equally many at every node.
-/

namespace FastGraph.CSRGraph
open Adjacency Buckets

variable {W : Type} {g : DynamicGraph W} {c c' : CSRGraph W} {ids : List Int}

/-! ### The nodes -/

/-- The sorted ids of the nodes. -/
def nodeIds (g : DynamicGraph W) (order : IterOrder) : List Int :=
  ((order.permute g.nodes.toList).map Prod.fst).mergeSort

theorem perm_nodeIds (g : DynamicGraph W) (order : IterOrder) :
    (nodeIds g order).Perm (g.nodes.toList.map Prod.fst) :=
  (List.mergeSort_perm _ _).trans ((order.perm _).map _)

theorem nodup_nodeIds (g : DynamicGraph W) (order : IterOrder) : (nodeIds g order).Nodup :=
  (perm_nodeIds g order).nodup_iff.mpr (UnorderedMap.nodup_keys _)

theorem mem_nodeIds {order : IterOrder} {id : Int} : id ∈ nodeIds g order ↔ g.hasNode id := by
  rw [(perm_nodeIds g order).mem_iff, UnorderedMap.map_fst_toList, DynamicGraph.hasNode]
  have absent := UnorderedMap.find_eq_none_iff g.nodes id
  rw [← not_iff_not, ← absent]
  simp

theorem length_nodeIds (g : DynamicGraph W) (order : IterOrder) :
    (nodeIds g order).length = g.nodeCount := by
  rw [(perm_nodeIds g order).length_eq, List.length_map, UnorderedMap.toList, List.length_map]
  rfl

/-- The last id is the largest. -/
theorem le_getLast_nodeIds {order : IterOrder} {id : Int} (mem : id ∈ nodeIds g order) :
    id ≤ (nodeIds g order).getLast?.getD 0 := by
  have sorted : (nodeIds g order).Pairwise (· ≤ ·) := List.pairwise_mergeSort' (· ≤ ·) _
  have nonempty := List.ne_nil_of_mem mem
  rw [List.getLast?_eq_some_getLast nonempty, Option.getD_some]
  exact sorted.rel_getLast mem

/-- The nodes are numbered in the order of `ids`. -/
structure Numbered (c : CSRGraph W) (ids : List Int) : Prop where
  distinct : ids.Nodup
  short : ids.length < 2 ^ 31
  nodeCount : c.nodeCount = ids.length
  idxToId : c.idxToId = ids
  number : ∀ (i : Nat) id, ids[i]? = some id → c.toIdx id = i
  others : ∀ id, id ∉ ids → c.toIdx id = -1

theorem Numbered.of_mem (numbered : Numbered c ids) {id : Int} (mem : id ∈ ids) :
    ∃ i : Nat, i < ids.length ∧ ids[i]? = some id ∧ c.toIdx id = i := by
  obtain ⟨i, inside, here⟩ := List.mem_iff_getElem.mp mem
  have found : ids[i]? = some id := List.getElem?_eq_some_iff.mpr ⟨inside, here⟩
  exact ⟨i, inside, found, numbered.number i id found⟩

/-- Whether an id has a number. -/
theorem Numbered.toIdx_neg_iff (numbered : Numbered c ids) {id : Int} :
    c.toIdx id < 0 ↔ id ∉ ids := by
  constructor
  · intro negative mem
    obtain ⟨i, -, -, number⟩ := numbered.of_mem mem
    omega
  · intro absent
    rw [numbered.others id absent]
    decide

theorem Numbered.toIdx_nonneg_iff (numbered : Numbered c ids) {id : Int} :
    0 ≤ c.toIdx id ↔ id ∈ ids := by
  rw [← not_iff_not, not_le, numbered.toIdx_neg_iff]

/-- The loop that numbers the nodes. -/
theorem foldlM_numberNodes (distinct : ids.Nodup) {m : Nat}
    (inside : ∀ id ∈ ids, 0 ≤ id ∧ id < m) (k : Nat) (bound : k ≤ ids.length) :
    ∃ idToIdx idxToId, (List.range k).foldlM (numberNodes ids)
        (List.replicate m (-1), List.replicate ids.length 0) = some (idToIdx, idxToId) ∧
      idToIdx.length = m ∧ idxToId.length = ids.length ∧
      (∀ i : Nat, i < k → vget idxToId i = ids[i]?) ∧
      (∀ (i : Nat) id, i < k → ids[i]? = some id → vget idToIdx id = some (i : Int)) ∧
      ∀ id : Int, 0 ≤ id → id < m → id ∉ ids → vget idToIdx id = some (-1) := by
  induction k with
  | zero =>
    refine ⟨_, _, rfl, List.length_replicate, List.length_replicate, ?_, ?_, ?_⟩
    · intro i none
      omega
    · intro i id none
      omega
    · intro id low high _
      rw [vget_replicate, if_pos ⟨low, high⟩]
  | succ k ih =>
    obtain ⟨idToIdx, idxToId, ran, length, length', named, numbered, others⟩ := ih (by omega)
    have here : ids[k]? = some ids[k] := List.getElem?_eq_getElem _
    obtain ⟨low, high⟩ := inside ids[k] (List.getElem_mem _)
    have stored := vset_of_inside (v := idToIdx) low (by rw [length]; exact high) (k : Int)
    have stored' := vset_of_inside (v := idxToId) (Int.natCast_nonneg k) (by omega) ids[k]
    refine ⟨idToIdx.set ids[k].toNat k, idxToId.set (k : Int).toNat ids[k], ?_, ?_, ?_, ?_, ?_, ?_⟩
    · rw [List.range_succ, List.foldlM_append, ran]
      simp [numberNodes, vget_natCast, here, stored, stored']
    · rw [List.length_set, length]
    · rw [List.length_set, length']
    · intro i before
      rw [vget_vset stored']
      split
      · rename_i last
        rw [Int.ofNat_inj.mp last, here]
      · exact named i (by omega)
    · intro i id before found
      rw [vget_vset stored]
      by_cases last : i = k
      · subst last
        rw [here, Option.some_inj] at found
        rw [if_pos found.symm]
      · have other : id ≠ ids[k] := by
          rintro rfl
          exact last ((List.getElem?_inj (by omega) distinct).mp (by rw [here, found])).symm
        rw [if_neg other]
        exact numbered i id (by omega) found
    · intro id low' high' absent
      have other : id ≠ ids[k] := by
        rintro rfl
        exact absent (List.getElem_mem _)
      rw [vget_vset stored, if_neg other]
      exact others id low' high' absent

theorem nodeIds_inside {order : IterOrder} (nonneg : ∀ id, g.hasNode id → 0 ≤ id) {id : Int}
    (mem : id ∈ nodeIds g order) : 0 ≤ id ∧ id < (nodeIds g order).getLast?.getD 0 + 1 :=
  ⟨nonneg id (mem_nodeIds.mp mem), Int.lt_add_one_of_le (le_getLast_nodeIds mem)⟩

/-- The largest id of a list of nodes is that of a node or 0. -/
theorem getLast_nodeIds (g : DynamicGraph W) (order : IterOrder) :
    (nodeIds g order).getLast?.getD 0 = 0 ∨ g.hasNode ((nodeIds g order).getLast?.getD 0) := by
  cases last : (nodeIds g order).getLast? with
  | none => exact Or.inl rfl
  | some id => exact Or.inr (mem_nodeIds.mp (List.mem_of_getLast? last))

/-- The two maps that the loop leaves number the nodes. -/
theorem numbered_of_maps {idToIdx idxToId : List Int} {m : Nat} (room : m < 2 ^ 31)
    (distinct : ids.Nodup) (inside : ∀ id ∈ ids, 0 ≤ id ∧ id < m) (length : idToIdx.length = m)
    (length' : idxToId.length = ids.length)
    (named : ∀ i : Nat, i < ids.length → vget idxToId i = ids[i]?)
    (numbered : ∀ (i : Nat) id, i < ids.length → ids[i]? = some id → vget idToIdx id = some (i : Int))
    (others : ∀ id : Int, 0 ≤ id → id < m → id ∉ ids → vget idToIdx id = some (-1)) :
    Numbered { (empty : CSRGraph W) with nodeCount := ids.length, idToIdx, idxToId } ids := by
  have few := length_le_of_nodup distinct inside
  have size : toInt32 idToIdx.length = m := by
    rw [length, toInt32_of_range (by omega) (by omega)]
  have names : idxToId = ids := by
    apply List.ext_getElem?
    intro i
    by_cases before : i < ids.length
    · rw [← vget_natCast, named i before]
    · rw [List.getElem?_eq_none (by omega), List.getElem?_eq_none (by omega)]
  refine ⟨distinct, by omega, rfl, names, ?_, ?_⟩
  · intro i id here
    have before := (List.getElem?_eq_some_iff.mp here).1
    obtain ⟨low, high⟩ := inside id (List.mem_of_getElem? here)
    rw [toIdx, size, if_neg (by omega), numbered i id before here, Option.getD_some]
  · intro id absent
    rw [toIdx, size]
    by_cases outside : id < 0 ∨ m ≤ id
    · rw [if_pos outside]
    · rw [if_neg outside, others id (by omega) (by omega) absent, Option.getD_some]

/-- `build_csr` numbers the nodes if the largest id has a successor. -/
theorem buildNodes_spec (nonneg : ∀ id, g.hasNode id → 0 ≤ id)
    (small : ∀ id, g.hasNode id → id < 2 ^ 31 - 1) (order : IterOrder) :
    ∃ c, buildNodes g order = Outcome.returned c ∧ Numbered c (nodeIds g order) := by
  have inside := fun id (mem : id ∈ nodeIds g order) => nodeIds_inside nonneg mem
  have distinct := nodup_nodeIds g order
  have last : 0 ≤ (nodeIds g order).getLast?.getD 0 ∧
      (nodeIds g order).getLast?.getD 0 < 2 ^ 31 - 1 := by
    rcases getLast_nodeIds g order with zero | node
    · omega
    · exact ⟨nonneg _ node, small _ node⟩
  obtain ⟨m, bound⟩ := Int.eq_ofNat_of_zero_le
    (show 0 ≤ (nodeIds g order).getLast?.getD 0 + 1 by omega)
  have sum : intAdd ((nodeIds g order).getLast?.getD 0) 1 = some (m : Int) :=
    intAdd_eq_some.mpr ⟨bound.symm, by omega, by omega⟩
  rw [bound] at inside
  have few := length_le_of_nodup distinct inside
  have count : toInt32 (nodeIds g order).length = (nodeIds g order).length :=
    toInt32_of_range (by omega) (by omega)
  obtain ⟨idToIdx, idxToId, ran, length, length', named, numbered, others⟩ :=
    foldlM_numberNodes distinct inside _ (le_refl _)
  have maps : vnew .create (m : Int) (-1 : Int) = Outcome.returned (List.replicate m (-1)) :=
    vnew_eq_returned.mpr ⟨by omega, by rw [Int.toNat_natCast]⟩
  have names : vnew .resize ((nodeIds g order).length : Int) (0 : Int) =
      Outcome.returned (List.replicate (nodeIds g order).length 0) :=
    vnew_eq_returned.mpr ⟨by omega, by rw [Int.toNat_natCast]⟩
  refine ⟨_, ?_,
    numbered_of_maps (by omega) distinct inside length length' named numbered others⟩
  rw [← count] at names
  refine Outcome.bind_eq_returned.mpr ⟨m, Outcome.ofOption_eq_returned.mpr sum, ?_⟩
  refine Outcome.bind_eq_returned.mpr ⟨_, maps, ?_⟩
  refine Outcome.bind_eq_returned.mpr ⟨_, names, ?_⟩
  refine Outcome.bind_eq_returned.mpr ⟨(idToIdx, idxToId), Outcome.ofOption_eq_returned.mpr ?_, ?_⟩
  · rw [← ran]
    unfold nodeIds at count ⊢
    rw [count, Int.toNat_natCast]
  · unfold nodeIds at count ⊢
    rw [count]
    rfl

/-- Where `build_csr` numbers the nodes, the largest id has a successor. -/
theorem buildNodes_small {order : IterOrder} (built : buildNodes g order = Outcome.returned c)
    {id : Int} (node : g.hasNode id) : id < 2 ^ 31 - 1 := by
  have mem : id ∈ nodeIds g order := mem_nodeIds.mpr node
  have last := le_getLast_nodeIds mem
  obtain ⟨bound, sum, -⟩ := Outcome.bind_eq_returned.mp built
  cases added : intAdd ((nodeIds g order).getLast?.getD 0) 1 with
  | none =>
    unfold nodeIds at added
    rw [added] at sum
    cases sum
  | some bound =>
    have fits := (intAdd_eq_some.mp added).2.2
    omega

/-- There are fewer than `2^32` nodes whose ids are `int`s with a successor. -/
theorem length_nodeIds_lt {order : IterOrder}
    (inside : ∀ id ∈ nodeIds g order, -2 ^ 31 ≤ id ∧ id < 2 ^ 31 - 1) :
    (nodeIds g order).length < 2 ^ 32 := by
  have within : (nodeIds g order).toFinset ⊆ Finset.Ico (-2 ^ 31) (2 ^ 31 - 1) := by
    intro id mem
    rw [Finset.mem_Ico]
    exact inside id (List.mem_toFinset.mp mem)
  have card := Finset.card_le_card within
  rw [List.toFinset_card_of_nodup (nodup_nodeIds g order), Int.card_Ico] at card
  omega

/-- Where `build_csr` numbers the nodes, no id is negative: the smallest one would be the first
subscript. -/
theorem buildNodes_nonneg {order : IterOrder} (isInt : ∀ id, g.hasNode id → -2 ^ 31 ≤ id)
    (built : buildNodes g order = Outcome.returned c) {id : Int} (node : g.hasNode id) : 0 ≤ id := by
  have mem : id ∈ nodeIds g order := mem_nodeIds.mpr node
  have few : (nodeIds g order).length < 2 ^ 32 := length_nodeIds_lt fun id mem =>
    ⟨isInt id (mem_nodeIds.mp mem), buildNodes_small built (mem_nodeIds.mp mem)⟩
  have sorted : (nodeIds g order).Pairwise (· ≤ ·) := List.pairwise_mergeSort' (· ≤ ·) _
  obtain ⟨bound, -, built⟩ := Outcome.bind_eq_returned.mp built
  obtain ⟨idToIdx, -, built⟩ := Outcome.bind_eq_returned.mp built
  obtain ⟨idxToId, names, built⟩ := Outcome.bind_eq_returned.mp built
  obtain ⟨maps, looped, -⟩ := Outcome.bind_eq_returned.mp built
  change vnew .resize (toInt32 (nodeIds g order).length) (0 : Int) = _ at names
  rw [Outcome.ofOption_eq_returned] at looped
  change (List.range (toInt32 (nodeIds g order).length).toNat).foldlM
    (numberNodes (nodeIds g order)) (idToIdx, idxToId) = some maps at looped
  have room := (vnew_eq_returned.mp names).1
  cases ids : nodeIds g order with
  | nil =>
    rw [ids] at mem
    cases mem
  | cons first rest =>
    rw [ids] at few room looped sorted mem
    have small : (first :: rest).length < 2 ^ 31 := by
      by_contra large
      have wrapped : toInt32 ((first :: rest).length : Nat) =
          ((first :: rest).length : Nat) - 2 ^ 32 := by
        unfold toInt32 wrapSigned
        rw [Int.bmod_def, Int.emod_eq_of_lt (by omega) (by omega), if_neg (by omega)]
        rfl
      omega
    have count : toInt32 ((first :: rest).length : Nat) = ((first :: rest).length : Nat) :=
      toInt32_of_range (by omega) (by omega)
    rw [count, Int.toNat_natCast, List.length_cons, List.range_succ_eq_map, List.foldlM_cons]
      at looped
    obtain ⟨maps₁, number, -⟩ := Option.bind_eq_some_iff.mp looped
    have here : vget (first :: rest) ((0 : Nat) : Int) = some first := vget_natCast _ _
    rw [numberNodes, here, Option.bind_eq_bind, Option.bind_some] at number
    obtain ⟨v, stored, -⟩ := Option.bind_eq_some_iff.mp number
    have low := (vset_inside stored).1
    rcases List.mem_cons.mp mem with rfl | later
    · exact low
    · exact low.trans (List.rel_of_pairwise_cons sorted later)

/-! ### The offsets -/

/-- Nodes with one number are one node. -/
theorem Numbered.inj (numbered : Numbered c ids) {a b : Int} (mem : 0 ≤ c.toIdx a)
    (same : c.toIdx a = c.toIdx b) : a = b := by
  obtain ⟨i, -, here, number⟩ := numbered.of_mem (numbered.toIdx_nonneg_iff.mp mem)
  obtain ⟨j, -, there, number'⟩ := numbered.of_mem (numbered.toIdx_nonneg_iff.mp (same ▸ mem))
  rw [number, number', Int.ofNat_inj] at same
  rw [same, there] at here
  exact (Option.some_inj.mp here).symm

/-- The lengths of the edge lists, as the `int`s that the counting loop makes of them. -/
def degrees (g : DynamicGraph W) (ids : List Int) : List Int :=
  ids.map fun id => toInt32 (g.neighbors id).length

/-- The rows of an adjacency map by key. -/
theorem mem_rows {order : IterOrder} {id : Int} {es : List (Edge W)} :
    (id, es) ∈ order.permute g.adj.toList ↔ g.adj.find id = some es := by
  rw [(order.perm _).mem_iff, UnorderedMap.mem_toList]

theorem nodup_rows (g : DynamicGraph W) (order : IterOrder) :
    ((order.permute g.adj.toList).map Prod.fst).Nodup :=
  ((order.perm _).map _).nodup_iff.mpr (UnorderedMap.nodup_keys _)

/-- The loop that counts degrees. -/
theorem foldlM_countDegree (numbered : Numbered c ids) (order : IterOrder) :
    (order.permute g.adj.toList).foldlM (countDegree c) (List.replicate ids.length 0) =
      some (degrees g ids) := by
  have filtered : (order.permute g.adj.toList).foldlM (countDegree c)
      (List.replicate ids.length 0) =
      ((order.permute g.adj.toList).filter fun r => decide (0 ≤ c.toIdx r.1)).foldlM
        (fun v r => vset v (c.toIdx r.1) (toInt32 r.2.length)) (List.replicate ids.length 0) := by
    rw [List.foldlM_filter]
    simp only [decide_eq_true_eq]
    rfl
  have listed := (nodup_rows g order).of_map
  have distinct : (((order.permute g.adj.toList).filter fun r => decide (0 ≤ c.toIdx r.1)).map
      fun r => c.toIdx r.1).Nodup := by
    apply List.Nodup.map_on _ (listed.filter _)
    intro r mem r' mem' same
    rw [List.mem_filter, decide_eq_true_iff] at mem mem'
    exact List.inj_on_of_nodup_map (nodup_rows g order) mem.1 mem'.1 (numbered.inj mem.2 same)
  obtain ⟨v, ran, length, each, others⟩ := foldlM_vset
    (fun r : Int × List (Edge W) => c.toIdx r.1) (fun r => toInt32 r.2.length)
    ((order.permute g.adj.toList).filter fun r => decide (0 ≤ c.toIdx r.1))
    (v := List.replicate ids.length (0 : Int))
    (by
      intro r mem
      rw [List.mem_filter, decide_eq_true_iff] at mem
      obtain ⟨i, inside, -, number⟩ := numbered.of_mem (numbered.toIdx_nonneg_iff.mp mem.2)
      rw [List.length_replicate, number]
      omega)
    distinct
  rw [filtered, ran, Option.some_inj]
  apply ext_vget
  intro i
  rw [vget_natCast (degrees g ids), degrees, List.getElem?_map]
  cases here : ids[i]? with
  | none =>
    have beyond : ids.length ≤ i := List.getElem?_eq_none_iff.mp here
    rw [vget_natCast, List.getElem?_eq_none (by rw [length, List.length_replicate]; exact beyond)]
    rfl
  | some id =>
    have inside := (List.getElem?_eq_some_iff.mp here).1
    have number := numbered.number i id here
    rw [Option.map_some, DynamicGraph.neighbors, row]
    cases found : g.adj.find id with
    | some es =>
      have mem : (id, es) ∈ (order.permute g.adj.toList).filter
          fun r => decide (0 ≤ c.toIdx r.1) := by
        rw [List.mem_filter, decide_eq_true_iff, number]
        exact ⟨mem_rows.mpr found, Int.natCast_nonneg i⟩
      rw [← number]
      exact each (id, es) mem
    | none =>
      rw [others, vget_replicate, if_pos (by omega)]
      · rw [Option.getD_none, List.length_nil, Nat.cast_zero, toInt32_of_range (by omega) (by omega)]
      · intro mem
        obtain ⟨r, inFilter, same⟩ := List.mem_map.mp mem
        rw [List.mem_filter, decide_eq_true_iff] at inFilter
        have key := numbered.inj inFilter.2 (same.trans number.symm)
        have stored := mem_rows.mp (show (r.1, r.2) ∈ _ from inFilter.1)
        rw [key, found] at stored
        cases stored

/-- The first `k` prefix sums, the rest still 0. -/
def sumsUpTo (degree : List Int) (k : Nat) : List Int :=
  (List.range (degree.length + 1)).map fun i => if i ≤ k then (degree.take i).sum else 0

theorem length_sumsUpTo (degree : List Int) (k : Nat) :
    (sumsUpTo degree k).length = degree.length + 1 := by
  rw [sumsUpTo, List.length_map, List.length_range]

theorem vget_sumsUpTo (degree : List Int) (k i : Nat) :
    vget (sumsUpTo degree k) i =
      if i ≤ degree.length then some (if i ≤ k then (degree.take i).sum else 0) else none := by
  rw [vget_natCast, sumsUpTo, List.getElem?_map]
  split
  · rename_i inside
    rw [List.getElem?_range (by omega)]
    rfl
  · rename_i outside
    rw [List.getElem?_eq_none (by rw [List.length_range]; omega)]
    rfl

/-- One iteration of the prefix sum. -/
theorem addOffset_sumsUpTo (degree : List Int) {k : Nat} (inside : k < degree.length)
    (v : List Int) :
    addOffset degree (sumsUpTo degree k) k = some v ↔
      (-2 ^ 31 ≤ (degree.take (k + 1)).sum ∧ (degree.take (k + 1)).sum < 2 ^ 31) ∧
        v = sumsUpTo degree (k + 1) := by
  have offset := vget_sumsUpTo degree k k
  rw [if_pos inside.le, if_pos (le_refl k)] at offset
  have size : vget degree k = some degree[k] := by
    rw [vget_natCast, List.getElem?_eq_getElem inside]
  have sum : (degree.take (k + 1)).sum = (degree.take k).sum + degree[k] :=
    sum_take_succ (List.getElem?_eq_getElem inside)
  have stored := vset_of_inside (v := sumsUpTo degree k) (i := (k : Int) + 1) (by omega)
    (by rw [length_sumsUpTo]; omega) (degree.take (k + 1)).sum
  have next : (sumsUpTo degree k).set ((k : Int) + 1).toNat (degree.take (k + 1)).sum =
      sumsUpTo degree (k + 1) := by
    apply ext_vget
    intro i
    rw [vget_vset stored, vget_sumsUpTo, vget_sumsUpTo]
    by_cases last : i = k + 1
    · subst last
      rw [if_pos (by omega), if_pos (by omega), if_pos (le_refl _)]
    · rw [if_neg (by omega)]
      by_cases before : i ≤ k
      · rw [if_pos before, if_pos (show i ≤ k + 1 by omega)]
      · rw [if_neg before, if_neg (show ¬ i ≤ k + 1 by omega)]
  rw [next] at stored
  simp only [addOffset, offset, size, Option.bind_eq_bind, Option.bind_some,
    Option.bind_eq_some_iff, intAdd_eq_some, ← sum]
  constructor
  · rintro ⟨_, ⟨rfl, fits⟩, last⟩
    rw [stored, Option.some_inj] at last
    exact ⟨fits, last.symm⟩
  · rintro ⟨fits, rfl⟩
    exact ⟨_, ⟨rfl, fits⟩, stored⟩

/-- The prefix sum: it is defined if no sum leaves the range of `int`. -/
theorem foldlM_addOffset (degree : List Int) (k : Nat) (bound : k ≤ degree.length) (v : List Int) :
    (List.range k).foldlM (addOffset degree) (sumsUpTo degree 0) = some v ↔
      (∀ i ≤ k, -2 ^ 31 ≤ (degree.take i).sum ∧ (degree.take i).sum < 2 ^ 31) ∧
        v = sumsUpTo degree k := by
  induction k generalizing v with
  | zero =>
    constructor
    · intro ran
      refine ⟨?_, (Option.some_inj.mp ran).symm⟩
      intro i none
      rw [Nat.le_zero.mp none, List.take_zero, List.sum_nil]
      decide
    · rintro ⟨-, rfl⟩
      rfl
  | succ k ih =>
    rw [List.range_succ, List.foldlM_append, Option.bind_eq_bind, Option.bind_eq_some_iff]
    simp only [ih (by omega), List.foldlM_cons, List.foldlM_nil, bind_pure]
    constructor
    · rintro ⟨_, ⟨before, rfl⟩, last⟩
      obtain ⟨fits, after⟩ := (addOffset_sumsUpTo degree (by omega) v).mp last
      refine ⟨?_, after⟩
      intro i here
      rcases Nat.le_or_eq_of_le_succ here with earlier | rfl
      · exact before i earlier
      · exact fits
    · rintro ⟨fits, after⟩
      refine ⟨_, ⟨fun i here => fits i (by omega), rfl⟩, ?_⟩
      exact (addOffset_sumsUpTo degree (by omega) v).mpr ⟨fits (k + 1) (le_refl _), after⟩

/-- What `build_csr` makes of the lengths of the lists. -/
theorem buildOffsets_eq_returned (numbered : Numbered c ids) (order : IterOrder) :
    buildOffsets c (order.permute g.adj.toList) = Outcome.returned c' ↔
      ids.length < 2 ^ 31 - 1 ∧
      (∀ i ≤ ids.length, -2 ^ 31 ≤ ((degrees g ids).take i).sum ∧
        ((degrees g ids).take i).sum < 2 ^ 31) ∧
      c' = { c with
        offsets := sumsUpTo (degrees g ids) ids.length
        edgeCount := (degrees g ids).sum } := by
  have length : (degrees g ids).length = ids.length := List.length_map ..
  have counted := foldlM_countDegree (g := g) numbered order
  have zeros : vset (List.replicate (ids.length + 1) (0 : Int)) 0 0 =
      some (sumsUpTo (degrees g ids) 0) := by
    have stored := vset_of_inside (v := List.replicate (ids.length + 1) (0 : Int)) (le_refl 0)
      (by rw [List.length_replicate]; omega) 0
    rw [stored, Option.some_inj]
    apply ext_vget
    intro i
    rw [vget_vset stored, vget_sumsUpTo, vget_replicate, length]
    by_cases first : i = 0
    · subst first
      rfl
    · rw [if_neg (by omega)]
      by_cases inside : i ≤ ids.length
      · rw [if_pos (by omega), if_pos inside, if_neg (by omega)]
      · rw [if_neg (by omega), if_neg inside]
  have total : vget (sumsUpTo (degrees g ids) ids.length) (ids.length : Int) =
      some (degrees g ids).sum := by
    rw [vget_sumsUpTo, if_pos (by omega), if_pos (le_refl _), ← length, List.take_length]
  have ran := foldlM_addOffset (degrees g ids) ids.length (le_of_eq length.symm)
  unfold buildOffsets
  rw [numbered.nodeCount]
  simp only [Outcome.bind_eq_returned, vnew_eq_returned, Outcome.ofOption_eq_returned,
    intAdd_eq_some, Outcome.pure_eq, Outcome.returned_inj, Int.toNat_natCast]
  constructor
  · rintro ⟨_, ⟨-, rfl⟩, degree, counts, _, ⟨rfl, -, room⟩, _, ⟨-, rfl⟩, first, opened, offsets,
      sums, edgeCount, last, rfl⟩
    rw [counted, Option.some_inj] at counts
    subst counts
    have size : ((ids.length : Int) + 1).toNat = ids.length + 1 := by omega
    rw [size, zeros, Option.some_inj] at opened
    subst opened
    obtain ⟨fits, rfl⟩ := (ran offsets).mp sums
    rw [total, Option.some_inj] at last
    subst last
    exact ⟨by omega, fits, rfl⟩
  · rintro ⟨room, fits, rfl⟩
    have size : ((ids.length : Int) + 1).toNat = ids.length + 1 := by omega
    refine ⟨_, ⟨by omega, rfl⟩, _, counted, _, ⟨rfl, by omega, by omega⟩, _, ⟨by omega, rfl⟩, _, ?_,
      _, (ran _).mpr ⟨fits, rfl⟩, _, total, rfl⟩
    rw [size]
    exact zeros

/-! ### The edges -/

/-- The edges of a node that end at a node. -/
def innerEdges (g : DynamicGraph W) (u : Int) : List (Edge W) :=
  (g.neighbors u).filter fun e => g.hasNode e.toId

/-- What the filling loop puts into the arrays, each edge under the number of its source. -/
def insertions (c : CSRGraph W) (rows : List (Int × List (Edge W))) : List (Nat × Edge W) :=
  ((rows.flatMap fun r => r.2.map fun e => (r.1, e)).filter fun x =>
    decide (0 ≤ c.toIdx x.1 ∧ 0 ≤ c.toIdx x.2.toId)).map fun x => ((c.toIdx x.1).toNat, x.2)

theorem mem_insertions {rows : List (Int × List (Edge W))} {x : Nat × Edge W}
    (mem : x ∈ insertions c rows) : 0 ≤ c.toIdx x.2.toId := by
  obtain ⟨y, inside, rfl⟩ := List.mem_map.mp mem
  rw [List.mem_filter, decide_eq_true_iff] at inside
  exact inside.2.2

/-- The two filling loops as one. -/
theorem foldlM_fillRow (rows : List (Int × List (Edge W))) (a : EdgeArrays W) :
    rows.foldlM (fillRow c) a =
      (insertions c rows).foldlM (fun a x => fillEdge c x.1 a x.2) a := by
  unfold insertions
  rw [List.foldlM_map, List.foldlM_filter]
  induction rows generalizing a with
  | nil => rfl
  | cons r rows ih =>
    rw [List.flatMap_cons, List.foldlM_append, List.foldlM_cons, List.foldlM_map]
    have first : fillRow c a r = r.2.foldlM (fun a e => if decide (0 ≤ c.toIdx r.1 ∧
        0 ≤ c.toIdx e.toId) = true then fillEdge c (c.toIdx r.1).toNat a e else pure a) a := by
      unfold fillRow
      by_cases source : c.toIdx r.1 < 0
      · rw [if_pos source]
        have skip : ∀ es : List (Edge W), es.foldlM (fun a e => if decide (0 ≤ c.toIdx r.1 ∧
            0 ≤ c.toIdx e.toId) = true then fillEdge c (c.toIdx r.1).toNat a e else pure a) a =
            some a := by
          intro es
          induction es with
          | nil => rfl
          | cons e es ih =>
            rw [List.foldlM_cons, if_neg (by rw [decide_eq_true_iff]; omega)]
            exact ih
        exact (skip r.2).symm
      · rw [if_neg source]
        congr 1
        funext a e
        by_cases target : c.toIdx e.toId < 0
        · rw [fillEdge, if_pos target, if_neg (by rw [decide_eq_true_iff]; omega)]
          rfl
        · rw [if_pos (by rw [decide_eq_true_iff]; omega), Int.toNat_of_nonneg (by omega)]
    rw [first]
    congr 1
    funext a
    exact ih a

/-- The insertions under the number of a node are its edges that end at a node. -/
theorem bucket_insertions (numbered : Numbered c ids) (nodes : ∀ id, id ∈ ids ↔ g.hasNode id)
    (order : IterOrder) {i : Nat} {u : Int} (here : ids[i]? = some u) :
    bucket (insertions c (order.permute g.adj.toList)) i = innerEdges g u := by
  have number := numbered.number i u here
  have own : ∀ x : Int × Edge W, (decide ((c.toIdx x.1).toNat = i) &&
      decide (0 ≤ c.toIdx x.1 ∧ 0 ≤ c.toIdx x.2.toId)) =
      (g.hasNode x.2.toId && decide (x.1 = u)) := by
    intro x
    rw [Bool.eq_iff_iff, Bool.and_eq_true, Bool.and_eq_true, decide_eq_true_iff,
      decide_eq_true_iff, decide_eq_true_iff, (numbered.toIdx_nonneg_iff : 0 ≤ c.toIdx x.2.toId ↔ _), nodes]
    constructor
    · rintro ⟨same, known, target⟩
      exact ⟨target, numbered.inj known (by omega)⟩
    · rintro ⟨target, rfl⟩
      exact ⟨by omega, by omega, target⟩
  rw [bucket, insertions, List.filter_map, List.map_map, List.filter_filter]
  simp only [Function.comp_def, own]
  rw [← List.filter_filter, innerEdges, ← GraphEngine.filter_edges g order u, List.filter_map]
  rfl

/-- The arrays after the insertions `xs`, the ranges having `sizes`. -/
structure Filled (c : CSRGraph W) (sizes : List Nat) (xs : List (Nat × Edge W))
    (a : EdgeArrays W) : Prop where
  cursors : a.cursor.length = sizes.length + 1
  cursor : ∀ key, key < sizes.length →
    vget a.cursor key = some ((start sizes key + (bucket xs key).length : Nat) : Int)
  lengths : a.targets.length = sizes.sum ∧ a.weights.length = sizes.sum ∧
    a.relTypes.length = sizes.sum
  targets : Placed sizes xs (fun e => c.toIdx e.toId) a.targets
  weights : Placed sizes xs Edge.weight a.weights
  relTypes : Placed sizes xs Edge.relType a.relTypes

/-- The insertions fit the ranges. -/
def Fits (sizes : List Nat) (xs : List (Nat × Edge W)) : Prop :=
  ∀ key, bucket xs key ≠ [] → ∃ size, sizes[key]? = some size ∧ (bucket xs key).length ≤ size

theorem Fits.of_snoc {sizes : List Nat} {xs : List (Nat × Edge W)} {x : Nat × Edge W}
    (fits : Fits sizes (xs ++ [x])) : Fits sizes xs := by
  intro key nonempty
  have longer := bucket_append xs [x] key
  obtain ⟨size, here, enough⟩ := fits key (by rw [longer]; simp [nonempty])
  rw [longer, List.length_append] at enough
  exact ⟨size, here, by omega⟩

/-- One insertion. -/
theorem Filled.snoc {sizes : List Nat} {xs : List (Nat × Edge W)} {x : Nat × Edge W}
    {a : EdgeArrays W} (filled : Filled c sizes xs a) (fits : Fits sizes (xs ++ [x]))
    (small : sizes.sum < 2 ^ 31) (known : 0 ≤ c.toIdx x.2.toId) :
    ∃ a', fillEdge c x.1 a x.2 = some a' ∧ Filled c sizes (xs ++ [x]) a' := by
  have longer := bucket_snoc xs x x.1
  rw [if_pos rfl] at longer
  obtain ⟨size, listed, enough⟩ := fits x.1 (by rw [longer]; simp)
  rw [longer, List.length_append, List.length_singleton] at enough
  have inside := (List.getElem?_eq_some_iff.mp listed).1
  have ends := start_add_le listed
  obtain ⟨length₁, length₂, length₃⟩ := filled.lengths
  have pos := filled.cursor x.1 inside
  have next := (intAdd_eq_some (a := ((start sizes x.1 + (bucket xs x.1).length : Nat) : Int))
    (b := 1)).mpr ⟨rfl, by omega, by omega⟩
  obtain ⟨cursor, moved⟩ := vset_isSome (v := a.cursor) (i := (x.1 : Int)) (by omega)
    (by rw [filled.cursors]; omega) (((start sizes x.1 + (bucket xs x.1).length : Nat) : Int) + 1)
  obtain ⟨targets, target⟩ := vset_isSome (v := a.targets)
    (i := ((start sizes x.1 + (bucket xs x.1).length : Nat) : Int)) (by omega)
    (by rw [length₁]; omega) (c.toIdx x.2.toId)
  obtain ⟨weights, weight⟩ := vset_isSome (v := a.weights)
    (i := ((start sizes x.1 + (bucket xs x.1).length : Nat) : Int)) (by omega)
    (by rw [length₂]; omega) x.2.weight
  obtain ⟨relTypes, relType⟩ := vset_isSome (v := a.relTypes)
    (i := ((start sizes x.1 + (bucket xs x.1).length : Nat) : Int)) (by omega)
    (by rw [length₃]; omega) x.2.relType
  refine ⟨⟨cursor, targets, weights, relTypes⟩, ?_, ?_, ?_, ?_,
    filled.targets.snoc fits target, filled.weights.snoc fits weight, filled.relTypes.snoc fits relType⟩
  · rw [fillEdge, if_neg (not_lt.mpr known)]
    refine Option.bind_eq_some_iff.mpr ⟨_, pos, ?_⟩
    refine Option.bind_eq_some_iff.mpr ⟨_, next, ?_⟩
    refine Option.bind_eq_some_iff.mpr ⟨_, moved, ?_⟩
    refine Option.bind_eq_some_iff.mpr ⟨_, target, ?_⟩
    refine Option.bind_eq_some_iff.mpr ⟨_, weight, ?_⟩
    exact Option.bind_eq_some_iff.mpr ⟨_, relType, rfl⟩
  · rw [length_vset moved, filled.cursors]
  · intro key before
    rw [vget_vset moved, bucket_snoc]
    by_cases same : x.1 = key
    · subst same
      rw [if_pos rfl, if_pos rfl, List.length_append, List.length_singleton]
      push_cast
      rw [add_assoc]
    · rw [if_neg (by omega), if_neg same, List.append_nil, filled.cursor key before]
  · exact ⟨(length_vset target).trans length₁, (length_vset weight).trans length₂,
      (length_vset relType).trans length₃⟩

/-- The filling loop. -/
theorem foldlM_fillEdge {sizes : List Nat} {xs : List (Nat × Edge W)} {a : EdgeArrays W}
    (initial : Filled c sizes [] a) (fits : Fits sizes xs) (small : sizes.sum < 2 ^ 31)
    (known : ∀ x ∈ xs, 0 ≤ c.toIdx x.2.toId) :
    ∃ a', xs.foldlM (fun a x => fillEdge c x.1 a x.2) a = some a' ∧ Filled c sizes xs a' := by
  induction xs using List.reverseRecOn with
  | nil => exact ⟨a, rfl, initial⟩
  | append_singleton xs x ih =>
    obtain ⟨a', ran, filled⟩ := ih fits.of_snoc fun y mem => known y (List.mem_append_left _ mem)
    obtain ⟨a'', last, filled'⟩ := filled.snoc fits small (known x (by simp))
    refine ⟨a'', ?_, filled'⟩
    rw [List.foldlM_append, ran]
    simpa using last

end FastGraph.CSRGraph
