import FastGraph.Graph.Proofs.CsrGraph

/-!
# When the compacted graph is the graph

`csr()` of an engine describes its graph, restricted to the nodes with metadata, exactly if
no edge of such a node ends at an id without metadata, the numbers fit an `int`, and no
label is a null pointer.
-/

namespace FastGraph.CSRGraph
open Adjacency Buckets

variable {W : Type} {g : DynamicGraph W} {c c' : CSRGraph W} {ids : List Int}

/-- The copy describes the graph restricted to its nodes: each node has a number, the slots
of its range are its edges that end at nodes, in order, and there are no other slots. -/
structure Describes (c : CSRGraph W) (g : DynamicGraph W) : Prop where
  named : ∀ u, g.hasNode u → vget c.idxToId (c.toIdx u) = some u
  unnamed : ∀ u, ¬ g.hasNode u → c.toIdx u = -1
  slots : ∀ u, g.hasNode u → ∃ first : Int,
    c.neighborRange (c.toIdx u) = some (first, first + (innerEdges g u).length) ∧
    ∀ (j : Nat) e, (innerEdges g u)[j]? = some e →
      vget c.targets (first + j) = some (c.toIdx e.toId) ∧
      vget c.weights (first + j) = some e.weight ∧
      vget c.relTypes (first + j) = some e.relType
  lengths : c.targets.length = c.edgeCount ∧ c.weights.length = c.edgeCount ∧
    c.relTypes.length = c.edgeCount
  noOther : ∀ k, 0 ≤ k → k < c.edgeCount → ∃ u first last, g.hasNode u ∧
    c.neighborRange (c.toIdx u) = some (first, last) ∧ first ≤ k ∧ k < last

/-- When `build_csr` makes such a copy: no label is null, the numbers of the nodes fit an
`int`, every node has as many edges, counted by an `int`, as edges that end at nodes, and
these are fewer than 2³¹ together. -/
structure Compactable (g : DynamicGraph W) : Prop where
  labels : ∀ id info, g.nodes.find id = some info → info.labelPtr ≠ none
  ids : ∀ id, g.hasNode id → id < 2 ^ 31 - 1
  nodes : g.nodeCount < 2 ^ 31 - 1
  edges : ∀ u, g.hasNode u → toInt32 (g.neighbors u).length = (innerEdges g u).length
  total : (g.nodes.toList.map fun n => (innerEdges g n.1).length).sum < 2 ^ 31

/-- It is a condition on the listed nodes. -/
theorem compactable_iff : Compactable g ↔
    (∀ n ∈ g.nodes.toList, n.2.labelPtr ≠ none ∧ n.1 < 2 ^ 31 - 1 ∧
      toInt32 (g.neighbors n.1).length = (innerEdges g n.1).length) ∧
    g.nodeCount < 2 ^ 31 - 1 ∧
    (g.nodes.toList.map fun n => (innerEdges g n.1).length).sum < 2 ^ 31 := by
  have listed : ∀ {n : Int × NodeMeta}, n ∈ g.nodes.toList → g.hasNode n.1 := by
    intro n mem
    rw [DynamicGraph.hasNode, UnorderedMap.mem_toList.mp mem]
    rfl
  constructor
  · rintro ⟨labels, ids, nodes, edges, total⟩
    refine ⟨?_, nodes, total⟩
    intro n mem
    exact ⟨labels n.1 n.2 (UnorderedMap.mem_toList.mp mem), ids n.1 (listed mem),
      edges n.1 (listed mem)⟩
  · rintro ⟨each, nodes, total⟩
    have named : ∀ u, g.hasNode u → ∃ info, (u, info) ∈ g.nodes.toList := by
      intro u node
      obtain ⟨info, stored⟩ := Option.isSome_iff_exists.mp node
      exact ⟨info, UnorderedMap.mem_toList.mpr stored⟩
    refine ⟨?_, ?_, nodes, ?_, total⟩
    · intro id info stored
      exact (each (id, info) (UnorderedMap.mem_toList.mpr stored)).1
    · intro u node
      obtain ⟨info, mem⟩ := named u node
      exact (each (u, info) mem).2.1
    · intro u node
      obtain ⟨info, mem⟩ := named u node
      exact (each (u, info) mem).2.2

instance decidableCompactable (g : DynamicGraph W) : Decidable (Compactable g) :=
  decidable_of_iff' _ compactable_iff

/-- The numbers of edges that end at nodes. -/
def sizes (g : DynamicGraph W) (ids : List Int) : List Nat :=
  ids.map fun u => (innerEdges g u).length

theorem sum_sizes (g : DynamicGraph W) (order : IterOrder) :
    (sizes g (nodeIds g order)).sum =
      (g.nodes.toList.map fun n => (innerEdges g n.1).length).sum := by
  have perm := (perm_nodeIds g order).map fun u => (innerEdges g u).length
  rw [List.map_map] at perm
  exact perm.sum_eq

/-- Where the counts agree, the prefix sums are the starts of the ranges. -/
theorem take_degrees (agree : ∀ u ∈ ids, toInt32 (g.neighbors u).length = (innerEdges g u).length)
    (i : Nat) : ((degrees g ids).take i).sum = start (sizes g ids) i := by
  have same : degrees g ids = (sizes g ids).map Nat.cast := by
    rw [degrees, sizes, List.map_map]
    exact List.map_congr_left agree
  rw [same, start, ← List.map_take, Nat.cast_list_sum]

theorem sum_degrees
    (agree : ∀ u ∈ ids, toInt32 (g.neighbors u).length = (innerEdges g u).length) :
    (degrees g ids).sum = (sizes g ids).sum := by
  have sums := take_degrees agree ids.length
  have length : (sizes g ids).length = ids.length := List.length_map ..
  have length' : (degrees g ids).length = ids.length := List.length_map ..
  rw [← length', List.take_length, length', ← length, start_length] at sums
  exact sums

/-! ### The last two parts -/

/-- What `build_csr` writes into the arrays of the edges. -/
theorem buildEdges_spec [Zero W] (numbered : Numbered c ids)
    (nodes : ∀ id, id ∈ ids ↔ g.hasNode id)
    (agree : ∀ u ∈ ids, toInt32 (g.neighbors u).length = (innerEdges g u).length)
    (small : (sizes g ids).sum < 2 ^ 31)
    (offsets : c.offsets = sumsUpTo (degrees g ids) ids.length)
    (edgeCount : c.edgeCount = (degrees g ids).sum) (order : IterOrder) :
    ∃ a : EdgeArrays W, buildEdges c (order.permute g.adj.toList) = Outcome.returned
        { c with targets := a.targets, weights := a.weights, relTypes := a.relTypes } ∧
      Filled c (sizes g ids) (insertions c (order.permute g.adj.toList)) a := by
  have length : (sizes g ids).length = ids.length := List.length_map ..
  have length' : (degrees g ids).length = ids.length := List.length_map ..
  have total := sum_degrees agree
  have initial : Filled c (sizes g ids) [] ⟨c.offsets,
      List.replicate (sizes g ids).sum 0, List.replicate (sizes g ids).sum 0,
      List.replicate (sizes g ids).sum []⟩ := by
    refine ⟨?_, ?_, ⟨List.length_replicate, List.length_replicate, List.length_replicate⟩,
      placed_nil _ _ _, placed_nil _ _ _, placed_nil _ _ _⟩
    · rw [offsets, length_sumsUpTo, length, length']
    · intro key before
      rw [offsets, vget_sumsUpTo, if_pos (by omega), if_pos (by omega), take_degrees agree]
      rfl
  have fits : Fits (sizes g ids) (insertions c (order.permute g.adj.toList)) := by
    intro key nonempty
    obtain ⟨e, mem⟩ := List.exists_mem_of_ne_nil _ nonempty
    obtain ⟨x, kept, -⟩ := List.mem_map.mp mem
    rw [List.mem_filter, decide_eq_true_iff] at kept
    obtain ⟨y, inside, rfl⟩ := List.mem_map.mp kept.1
    rw [List.mem_filter, decide_eq_true_iff] at inside
    obtain ⟨i, before, here, number⟩ := numbered.of_mem (numbered.toIdx_nonneg_iff.mp inside.2.1)
    have same : i = key := by
      have := kept.2
      simp only [number, Int.toNat_natCast] at this
      exact this
    subst same
    rw [bucket_insertions numbered nodes order here]
    refine ⟨_, ?_, le_refl _⟩
    rw [sizes, List.getElem?_map, here, Option.map_some]
  obtain ⟨a, ran, filled⟩ := foldlM_fillEdge initial fits small fun x mem => mem_insertions mem
  refine ⟨a, ?_, filled⟩
  have room : (0 : Int) ≤ c.edgeCount := by omega
  have count : c.edgeCount.toNat = (sizes g ids).sum := by omega
  refine Outcome.bind_eq_returned.mpr ⟨_, vnew_eq_returned.mpr ⟨room, rfl⟩, ?_⟩
  refine Outcome.bind_eq_returned.mpr ⟨_, vnew_eq_returned.mpr ⟨room, rfl⟩, ?_⟩
  refine Outcome.bind_eq_returned.mpr ⟨_, vnew_eq_returned.mpr ⟨room, rfl⟩, ?_⟩
  refine Outcome.bind_eq_returned.mpr ⟨a, Outcome.ofOption_eq_returned.mpr ?_, rfl⟩
  rw [foldlM_fillRow, count]
  exact ran

/-- What the third part leaves as it is. -/
theorem buildEdges_frame [Zero W] {rows : List (Int × List (Edge W))}
    (built : buildEdges c rows = Outcome.returned c') : ∃ targets weights relTypes,
    c' = { c with targets := targets, weights := weights, relTypes := relTypes } := by
  obtain ⟨_, -, built⟩ := Outcome.bind_eq_returned.mp built
  obtain ⟨_, -, built⟩ := Outcome.bind_eq_returned.mp built
  obtain ⟨_, -, built⟩ := Outcome.bind_eq_returned.mp built
  obtain ⟨a, -, built⟩ := Outcome.bind_eq_returned.mp built
  exact ⟨_, _, _, (Outcome.returned_inj.mp built).symm⟩

/-- The loop over the metadata throws on a label that is no string, and on nothing else. -/
theorem foldlM_fillNode (numbered : Numbered c ids)
    (labelString : CharPtr → Except StdException Bytes) {ns : List (Int × NodeMeta)}
    (known : ∀ n ∈ ns, n.1 ∈ ids) (texts : List Bytes × List Bytes)
    (lengths : texts.1.length = ids.length ∧ texts.2.length = ids.length) :
    (∃ texts', ns.foldlM (fillNode c labelString) texts = Outcome.returned texts') ↔
      ∀ n ∈ ns, ∃ s, labelString n.2.labelPtr = .ok s := by
  induction ns generalizing texts with
  | nil => exact iff_of_true ⟨texts, rfl⟩ (by simp)
  | cons n ns ih =>
    obtain ⟨i, before, -, number⟩ := numbered.of_mem (known n (by simp))
    have unfolded : fillNode c labelString texts n = (do
        let label ← Outcome.ofExcept (labelString n.2.labelPtr)
        let labels ← Outcome.ofOption (vset texts.1 (c.toIdx n.1) label)
        let props ← Outcome.ofOption (vset texts.2 (c.toIdx n.1) n.2.props)
        pure (labels, props)) := by
      rw [fillNode, if_neg (by omega)]
    rw [List.foldlM_cons, List.forall_mem_cons]
    constructor
    · rintro ⟨texts', ran⟩
      obtain ⟨next, first, rest⟩ := Outcome.bind_eq_returned.mp ran
      rw [unfolded] at first
      obtain ⟨s, label, first⟩ := Outcome.bind_eq_returned.mp first
      obtain ⟨labels, stored, first⟩ := Outcome.bind_eq_returned.mp first
      obtain ⟨props, stored', first⟩ := Outcome.bind_eq_returned.mp first
      rw [Outcome.ofOption_eq_returned] at stored stored'
      rw [Outcome.pure_eq, Outcome.returned_inj] at first
      subst first
      refine ⟨⟨s, Outcome.ofExcept_eq_returned.mp label⟩, ?_⟩
      exact (ih (fun m later => known m (List.mem_cons_of_mem _ later)) (labels, props)
        ⟨(length_vset stored).trans lengths.1, (length_vset stored').trans lengths.2⟩).mp
        ⟨texts', rest⟩
    · rintro ⟨⟨s, label⟩, later⟩
      obtain ⟨labels, stored⟩ := vset_isSome (v := texts.1) (i := c.toIdx n.1) (by omega)
        (by omega) s
      obtain ⟨props, stored'⟩ := vset_isSome (v := texts.2) (i := c.toIdx n.1) (by omega)
        (by omega) n.2.props
      obtain ⟨texts', rest⟩ := (ih (fun m later => known m (List.mem_cons_of_mem _ later)) (labels, props)
        ⟨(length_vset stored).trans lengths.1, (length_vset stored').trans lengths.2⟩).mpr later
      refine ⟨texts', Outcome.bind_eq_returned.mpr ⟨(labels, props), ?_, rest⟩⟩
      rw [unfolded]
      refine Outcome.bind_eq_returned.mpr ⟨s, Outcome.ofExcept_eq_returned.mpr label, ?_⟩
      refine Outcome.bind_eq_returned.mpr ⟨labels, Outcome.ofOption_eq_returned.mpr stored, ?_⟩
      exact Outcome.bind_eq_returned.mpr ⟨props, Outcome.ofOption_eq_returned.mpr stored', rfl⟩

/-- When the fourth part returns, and what it leaves as it is. -/
theorem buildTexts_spec (numbered : Numbered c ids)
    (labelString : CharPtr → Except StdException Bytes) (ns : List (Int × NodeMeta))
    (known : ∀ n ∈ ns, n.1 ∈ ids) :
    ((∃ c', buildTexts c labelString ns = Outcome.returned c') ↔
      ∀ n ∈ ns, ∃ s, labelString n.2.labelPtr = .ok s) ∧
    ∀ c', buildTexts c labelString ns = Outcome.returned c' →
      ∃ labels props, c' = { c with labels := labels, props := props } := by
  have room : (0 : Int) ≤ c.nodeCount := by
    rw [numbered.nodeCount]
    omega
  have count : c.nodeCount.toNat = ids.length := by
    rw [numbered.nodeCount]
    omega
  have loop := foldlM_fillNode numbered labelString known
    ((List.replicate c.nodeCount.toNat [], List.replicate c.nodeCount.toNat []))
    (by simp [count])
  rw [← loop]
  refine ⟨⟨?_, ?_⟩, ?_⟩
  · rintro ⟨c', built⟩
    obtain ⟨labels, new, built⟩ := Outcome.bind_eq_returned.mp built
    obtain ⟨props, new', built⟩ := Outcome.bind_eq_returned.mp built
    rw [vnew_eq_returned] at new new'
    obtain ⟨texts, ran, -⟩ := Outcome.bind_eq_returned.mp built
    rw [new.2, new'.2] at ran
    exact ⟨texts, ran⟩
  · rintro ⟨texts, ran⟩
    refine ⟨{ c with labels := texts.1, props := texts.2 }, ?_⟩
    refine Outcome.bind_eq_returned.mpr ⟨_, vnew_eq_returned.mpr ⟨room, rfl⟩, ?_⟩
    refine Outcome.bind_eq_returned.mpr ⟨_, vnew_eq_returned.mpr ⟨room, rfl⟩, ?_⟩
    exact Outcome.bind_eq_returned.mpr ⟨texts, ran, rfl⟩
  · intro c' built
    obtain ⟨_, -, built⟩ := Outcome.bind_eq_returned.mp built
    obtain ⟨_, -, built⟩ := Outcome.bind_eq_returned.mp built
    obtain ⟨texts, -, built⟩ := Outcome.bind_eq_returned.mp built
    exact ⟨_, _, (Outcome.returned_inj.mp built).symm⟩

/-! ### The whole copy -/

/-- The range of a node: its length is the degree that was counted. -/
theorem neighborRange_eq (offsets : c.offsets = sumsUpTo (degrees g ids) ids.length) {i : Nat}
    {u : Int} (here : ids[i]? = some u) :
    c.neighborRange i = some (((degrees g ids).take i).sum,
      ((degrees g ids).take i).sum + toInt32 (g.neighbors u).length) := by
  have length : (degrees g ids).length = ids.length := List.length_map ..
  have before := (List.getElem?_eq_some_iff.mp here).1
  have degree : (degrees g ids)[i]? = some (toInt32 (g.neighbors u).length) := by
    rw [degrees, List.getElem?_map, here, Option.map_some]
  have next : ((degrees g ids).take (i + 1)).sum =
      ((degrees g ids).take i).sum + toInt32 (g.neighbors u).length := sum_take_succ degree
  refine Option.bind_eq_some_iff.mpr ⟨((degrees g ids).take i).sum, ?_, ?_⟩
  · rw [offsets, vget_sumsUpTo, if_pos (by omega), if_pos (by omega)]
  · refine Option.bind_eq_some_iff.mpr ⟨((degrees g ids).take (i + 1)).sum, ?_, by rw [next]⟩
    rw [offsets, ← Nat.cast_succ, vget_sumsUpTo, if_pos (by omega), if_pos (by omega)]

/-- Filled arrays describe the graph. -/
theorem describes_of_filled (numbered : Numbered c ids) (nodes : ∀ id, id ∈ ids ↔ g.hasNode id)
    (agree : ∀ u ∈ ids, toInt32 (g.neighbors u).length = (innerEdges g u).length)
    (idToIdx : c'.idToIdx = c.idToIdx) (idxToId : c'.idxToId = c.idxToId)
    (offsets : c'.offsets = sumsUpTo (degrees g ids) ids.length)
    (edgeCount : c'.edgeCount = (degrees g ids).sum) {order : IterOrder} {a : EdgeArrays W}
    (filled : Filled c (sizes g ids) (insertions c (order.permute g.adj.toList)) a)
    (arrays : c'.targets = a.targets ∧ c'.weights = a.weights ∧ c'.relTypes = a.relTypes) :
    Describes c' g := by
  have numbers : ∀ id, c'.toIdx id = c.toIdx id := by
    intro id
    rw [toIdx, toIdx, idToIdx]
  have total := sum_degrees agree
  obtain ⟨targets, weights, relTypes⟩ := arrays
  obtain ⟨length₁, length₂, length₃⟩ := filled.lengths
  refine ⟨?_, ?_, ?_, ⟨?_, ?_, ?_⟩, ?_⟩
  · intro u node
    obtain ⟨i, -, here, number⟩ := numbered.of_mem ((nodes u).mpr node)
    rw [numbers, number, vget_natCast, idxToId, numbered.idxToId, here]
  · intro u absent
    rw [numbers]
    exact numbered.others u fun mem => absent ((nodes u).mp mem)
  · intro u node
    obtain ⟨i, -, here, number⟩ := numbered.of_mem ((nodes u).mpr node)
    have bucket := bucket_insertions numbered nodes order here
    refine ⟨start (sizes g ids) i, ?_, ?_⟩
    · rw [numbers, number, neighborRange_eq offsets here, take_degrees agree,
        agree u ((nodes u).mpr node)]
    · intro j e edge
      rw [← bucket] at edge
      rw [← Nat.cast_add, targets, weights, relTypes, numbers]
      exact ⟨filled.targets i j e edge, filled.weights i j e edge, filled.relTypes i j e edge⟩
  · rw [targets, length₁, edgeCount, total]
  · rw [weights, length₂, edgeCount, total]
  · rw [relTypes, length₃, edgeCount, total]
  · intro k low high
    obtain ⟨k, rfl⟩ := Int.eq_ofNat_of_zero_le low
    rw [edgeCount, total, Int.ofNat_lt] at high
    obtain ⟨i, size, listed, first, last⟩ := covered high
    rw [sizes, List.getElem?_map] at listed
    obtain ⟨u, here, rfl⟩ := Option.map_eq_some_iff.mp listed
    have mem := List.mem_of_getElem? here
    refine ⟨u, start (sizes g ids) i, start (sizes g ids) i + (innerEdges g u).length,
      (nodes u).mp mem, ?_, by omega, by omega⟩
    rw [numbers, numbered.number i u here, neighborRange_eq offsets here, take_degrees agree,
      agree u mem]

/-- What the four parts do together. -/
theorem buildCsr_eq_returned [Zero W] {labelString : CharPtr → Except StdException Bytes}
    {order : IterOrder} (built : buildCsr g labelString order = Outcome.returned c') :
    ∃ c₁ c₂ c₃, buildNodes g order = Outcome.returned c₁ ∧
      buildOffsets c₁ (order.permute g.adj.toList) = Outcome.returned c₂ ∧
      buildEdges c₂ (order.permute g.adj.toList) = Outcome.returned c₃ ∧
      buildTexts c₃ labelString (order.permute g.nodes.toList) = Outcome.returned c' := by
  obtain ⟨c₁, first, built⟩ := Outcome.bind_eq_returned.mp built
  obtain ⟨c₂, second, built⟩ := Outcome.bind_eq_returned.mp built
  obtain ⟨c₃, third, fourth⟩ := Outcome.bind_eq_returned.mp built
  exact ⟨c₁, c₂, c₃, first, second, third, fourth⟩

theorem mem_ids_of_nodes {order : IterOrder} {n : Int × NodeMeta}
    (mem : n ∈ order.permute g.nodes.toList) : n.1 ∈ nodeIds g order := by
  rw [mem_nodeIds, DynamicGraph.hasNode, UnorderedMap.mem_toList.mp ((order.perm _).subset mem)]
  rfl

/-- `build_csr` makes a right copy of a graph that can be compacted. -/
theorem buildCsr_spec [Zero W] (nonneg : ∀ id, g.hasNode id → 0 ≤ id)
    (compactable : Compactable g) {labelString : CharPtr → Except StdException Bytes}
    (text : ∀ ptr, (∃ s, labelString ptr = .ok s) ↔ ptr ≠ none) (order : IterOrder) :
    ∃ c, buildCsr g labelString order = Outcome.returned c ∧ Describes c g := by
  obtain ⟨c₁, first, numbered⟩ := buildNodes_spec nonneg compactable.ids order
  have nodes : ∀ id, id ∈ nodeIds g order ↔ g.hasNode id := fun id => mem_nodeIds
  have agree : ∀ u ∈ nodeIds g order,
      toInt32 (g.neighbors u).length = (innerEdges g u).length :=
    fun u mem => compactable.edges u ((nodes u).mp mem)
  have small : (sizes g (nodeIds g order)).sum < 2 ^ 31 := by
    rw [sum_sizes]
    exact compactable.total
  have count := length_nodeIds g order
  have length : (sizes g (nodeIds g order)).length = (nodeIds g order).length := List.length_map ..
  have length' : (degrees g (nodeIds g order)).length = (nodeIds g order).length :=
    List.length_map ..
  have second : buildOffsets c₁ (order.permute g.adj.toList) = Outcome.returned { c₁ with
      offsets := sumsUpTo (degrees g (nodeIds g order)) (nodeIds g order).length
      edgeCount := (degrees g (nodeIds g order)).sum } := (buildOffsets_eq_returned numbered order).mpr
    ⟨by rw [count]; exact compactable.nodes, by
      intro i _
      rw [take_degrees agree]
      have := start_le_sum (sizes g (nodeIds g order)) i
      omega, rfl⟩
  -- The second part keeps what `Numbered` speaks of.
  have numbered₂ : Numbered { c₁ with
      offsets := sumsUpTo (degrees g (nodeIds g order)) (nodeIds g order).length
      edgeCount := (degrees g (nodeIds g order)).sum } (nodeIds g order) :=
    ⟨numbered.distinct, numbered.short, numbered.nodeCount, numbered.idxToId, numbered.number,
      numbered.others⟩
  obtain ⟨a, third, filled⟩ := buildEdges_spec numbered₂ nodes agree small rfl rfl order
  have numbered₃ : Numbered { c₁ with
      offsets := sumsUpTo (degrees g (nodeIds g order)) (nodeIds g order).length
      edgeCount := (degrees g (nodeIds g order)).sum
      targets := a.targets
      weights := a.weights
      relTypes := a.relTypes } (nodeIds g order) :=
    ⟨numbered.distinct, numbered.short, numbered.nodeCount, numbered.idxToId, numbered.number,
      numbered.others⟩
  obtain ⟨returns, frame⟩ := buildTexts_spec numbered₃ labelString
    (order.permute g.nodes.toList) fun n mem => mem_ids_of_nodes mem
  obtain ⟨c, fourth⟩ := returns.mpr fun n mem => (text n.2.labelPtr).mpr
    (compactable.labels n.1 n.2 (UnorderedMap.mem_toList.mp ((order.perm _).subset mem)))
  obtain ⟨labels, props, rfl⟩ := frame c fourth
  refine ⟨_, Outcome.bind_eq_returned.mpr ⟨c₁, first, Outcome.bind_eq_returned.mpr ⟨_, second,
    Outcome.bind_eq_returned.mpr ⟨_, third, fourth⟩⟩⟩, ?_⟩
  exact describes_of_filled numbered₂ nodes agree rfl rfl rfl rfl filled ⟨rfl, rfl, rfl⟩

/-- The length of a range is the degree that was counted. -/
theorem length_of_range (offsets : c.offsets = sumsUpTo (degrees g ids) ids.length) {i n : Nat}
    {u first : Int} (here : ids[i]? = some u) (number : c.toIdx u = i)
    (range : c.neighborRange (c.toIdx u) = some (first, first + n)) :
    toInt32 (g.neighbors u).length = n := by
  rw [number, neighborRange_eq offsets here, Option.some_inj, Prod.mk.injEq] at range
  omega

/-- The copy before its edges and texts: the numbers of the nodes and the prefix sums. -/
def withOffsets (c : CSRGraph W) (g : DynamicGraph W) (ids : List Int) : CSRGraph W :=
  { c with
    offsets := sumsUpTo (degrees g ids) ids.length
    edgeCount := (degrees g ids).sum }

/-- What is known of a copy that was made. -/
theorem buildCsr_made [Zero W] (nonneg : ∀ id, g.hasNode id → 0 ≤ id)
    {labelString : CharPtr → Except StdException Bytes} {order : IterOrder}
    (built : buildCsr g labelString order = Outcome.returned c') :
    ∃ (c : CSRGraph W) (targets : List Int) (weights : List W) (relTypes labels props : List Bytes),
      Numbered c (nodeIds g order) ∧ (∀ id, g.hasNode id → id < 2 ^ 31 - 1) ∧
      (nodeIds g order).length < 2 ^ 31 - 1 ∧ (degrees g (nodeIds g order)).sum < 2 ^ 31 ∧
      buildEdges (withOffsets c g (nodeIds g order)) (order.permute g.adj.toList) =
        Outcome.returned { withOffsets c g (nodeIds g order) with
          targets := targets, weights := weights, relTypes := relTypes } ∧
      (∀ n ∈ order.permute g.nodes.toList, ∃ s, labelString n.2.labelPtr = .ok s) ∧
      c' = { withOffsets c g (nodeIds g order) with
        targets := targets, weights := weights, relTypes := relTypes, labels := labels
        props := props } := by
  obtain ⟨c₁, c₂, c₃, first, second, third, fourth⟩ := buildCsr_eq_returned built
  have small := fun id (node : g.hasNode id) => buildNodes_small first node
  obtain ⟨c, first', numbered⟩ := buildNodes_spec nonneg small order
  rw [first, Outcome.returned_inj] at first'
  subst first'
  obtain ⟨room, fits, rfl⟩ := (buildOffsets_eq_returned numbered order).mp second
  obtain ⟨targets, weights, relTypes, rfl⟩ := buildEdges_frame third
  have numbered₃ : Numbered { withOffsets c₁ g (nodeIds g order) with
      targets := targets, weights := weights, relTypes := relTypes } (nodeIds g order) :=
    ⟨numbered.distinct, numbered.short, numbered.nodeCount, numbered.idxToId, numbered.number,
      numbered.others⟩
  obtain ⟨returns, frame⟩ := buildTexts_spec numbered₃ labelString
    (order.permute g.nodes.toList) fun n mem => mem_ids_of_nodes mem
  obtain ⟨labels, props, rfl⟩ := frame c' fourth
  have length : (degrees g (nodeIds g order)).length = (nodeIds g order).length :=
    List.length_map ..
  have last := (fits (nodeIds g order).length (le_refl _)).2
  rw [← length, List.take_length] at last
  exact ⟨c₁, targets, weights, relTypes, labels, props, numbered, small, room, last, third,
    returns.mp ⟨_, fourth⟩, rfl⟩

/-- A graph of which a copy was made can be compacted, if the counts agree. -/
theorem compactable_of_made [Zero W] (nonneg : ∀ id, g.hasNode id → 0 ≤ id)
    {labelString : CharPtr → Except StdException Bytes}
    (text : ∀ ptr, (∃ s, labelString ptr = .ok s) ↔ ptr ≠ none) {order : IterOrder}
    (built : buildCsr g labelString order = Outcome.returned c')
    (agree : ∀ u, g.hasNode u → toInt32 (g.neighbors u).length = (innerEdges g u).length) :
    Compactable g := by
  obtain ⟨c, _, _, _, _, _, -, small, room, last, -, labels, -⟩ := buildCsr_made nonneg built
  refine ⟨?_, small, ?_, agree, ?_⟩
  · intro id info stored
    apply (text info.labelPtr).mp
    exact labels (id, info) ((order.perm _).mem_iff.mpr (UnorderedMap.mem_toList.mpr stored))
  · rw [← length_nodeIds g order]
    exact room
  · rw [sum_degrees fun u mem => agree u (mem_nodeIds.mp mem), sum_sizes] at last
    omega

/-- A right copy is one of a graph that can be compacted. -/
theorem compactable_of_describes [Zero W] (nonneg : ∀ id, g.hasNode id → 0 ≤ id)
    {labelString : CharPtr → Except StdException Bytes}
    (text : ∀ ptr, (∃ s, labelString ptr = .ok s) ↔ ptr ≠ none) {order : IterOrder}
    (built : buildCsr g labelString order = Outcome.returned c') (describes : Describes c' g) :
    Compactable g := by
  obtain ⟨c, targets, weights, relTypes, labels, props, numbered, -, -, -, -, -, rfl⟩ :=
    buildCsr_made nonneg built
  refine compactable_of_made nonneg text built ?_
  intro u node
  obtain ⟨i, -, here, number⟩ := numbered.of_mem (mem_nodeIds.mpr node)
  obtain ⟨start, range, -⟩ := describes.slots u node
  refine length_of_range ?_ here ?_ range
  · rfl
  · exact number

/-- A copy that was made is right exactly if the graph can be compacted. -/
theorem describes_iff [Zero W] (nonneg : ∀ id, g.hasNode id → 0 ≤ id)
    {labelString : CharPtr → Except StdException Bytes}
    (text : ∀ ptr, (∃ s, labelString ptr = .ok s) ↔ ptr ≠ none) {order : IterOrder}
    (built : buildCsr g labelString order = Outcome.returned c) :
    Describes c g ↔ Compactable g := by
  constructor
  · exact compactable_of_describes nonneg text built
  · intro compactable
    obtain ⟨c', built', describes⟩ := buildCsr_spec nonneg compactable text order
    rw [built, Outcome.returned_inj] at built'
    subst built'
    exact describes

end FastGraph.CSRGraph

namespace FastGraph.GraphEngine
open CSRGraph

section
variable {W D : Type} [Zero W] [BEq D] [LT D] [DecidableLT D]
  {e e' : GraphEngine W D}

/-- The engines that interleaved calls of `add_node`, `add_edge`, `remove_node`,
`remove_edge` and `csr` lead to, the ids of nodes being non-negative `int`s. -/
inductive CsrReachable : GraphEngine W D → Prop where
  | empty : CsrReachable empty
  | addNode {e : GraphEngine W D} (reached : CsrReachable e) (id : Int) (label props : Bytes)
      (low : 0 ≤ id) (high : id < 2 ^ 31) : CsrReachable (e.addNode id label props)
  | addEdge {e : GraphEngine W D} (reached : CsrReachable e) (fromId toId : Int) (rel : Bytes)
      (weight : W) : CsrReachable (e.addEdge fromId toId rel weight)
  | removeNode {e e' : GraphEngine W D} (reached : CsrReachable e) (id : Int)
      (stepped : e.removeNode id = Outcome.returned e') : CsrReachable e'
  | removeEdge {e : GraphEngine W D} (reached : CsrReachable e) (fromId toId : Int) (rel : Bytes) :
      CsrReachable (e.removeEdge fromId toId rel)
  | csr {e e' : GraphEngine W D} {c : CSRGraph W} (reached : CsrReachable e) (order : IterOrder)
      (stepped : e.csr order = Outcome.returned (e', c)) : CsrReachable e'

omit [Zero W] [BEq D] [LT D] [DecidableLT D] in
theorem labelString_ok (e : GraphEngine W D) (ptr : CharPtr) :
    (∃ s, e.labelString ptr = .ok s) ↔ ptr ≠ none := by
  cases ptr with
  | none => exact iff_of_false (by rintro ⟨s, ok⟩; cases ok) (by simp)
  | some p => exact iff_of_true ⟨_, rfl⟩ (by simp)

/-- The ids of nodes are not negative, and the copy of an engine that is not dirty is right
exactly if its graph can be compacted. -/
structure Cached (e : GraphEngine W D) : Prop where
  nonneg : ∀ id, e.graph.hasNode id → 0 ≤ id
  fresh : e.graph.dirty = false → (Describes e.compacted e.graph ↔ Compactable e.graph)

omit [Zero W] [BEq D] [LT D] [DecidableLT D] in
theorem cached_empty : Cached (empty : GraphEngine W D) where
  nonneg id node := by cases node
  fresh _ := by
    refine iff_of_true ⟨?_, ?_, ?_, ⟨rfl, rfl, rfl⟩, ?_⟩
      ⟨?_, ?_, show 0 < 2 ^ 31 - 1 by norm_num, ?_, show 0 < 2 ^ 31 by norm_num⟩
    · intro u node
      cases node
    · intro u _
      unfold toIdx
      split
      · rfl
      · simp [empty, CSRGraph.empty, vget]
    · intro u node
      cases node
    · intro k low high
      exact absurd (lt_of_le_of_lt low high) (lt_irrefl _)
    · intro id info stored
      cases stored
    · intro id node
      cases node
    · intro u node
      cases node

omit [Zero W] [BEq D] [LT D] [DecidableLT D] in
/-- A mutation makes an engine dirty. -/
theorem cached_of_dirty (nonneg : ∀ id, e.graph.hasNode id → 0 ≤ id)
    (dirty : e.graph.dirty = true) : Cached e := by
  refine ⟨nonneg, ?_⟩
  intro clean
  rw [dirty] at clean
  cases clean

omit [BEq D] [LT D] [DecidableLT D] in
/-- What a call of `csr` does: it copies the graph of a dirty engine. -/
theorem csr_returned {order : IterOrder} {c : CSRGraph W}
    (stepped : e.csr order = Outcome.returned (e', c)) :
    (e.graph.dirty = false ∧ e' = e ∧ c = e.compacted) ∨
      (e.graph.dirty = true ∧ buildCsr e.graph e.labelString order = Outcome.returned c ∧
        e' = { e with compacted := c, graph := e.graph.clearDirty }) := by
  unfold GraphEngine.csr at stepped
  split at stepped
  · rename_i dirty
    obtain ⟨e₁, compacted, pair⟩ := Outcome.bind_eq_returned.mp stepped
    obtain ⟨c', built, same⟩ := Outcome.bind_eq_returned.mp compacted
    rw [Outcome.pure_eq, Outcome.returned_inj] at same pair
    subst same
    cases pair
    exact Or.inr ⟨dirty, built, rfl⟩
  · rename_i clean
    rw [Outcome.pure_eq, Outcome.returned_inj] at stepped
    cases stepped
    exact Or.inl ⟨Bool.eq_false_iff.mpr clean, rfl, rfl⟩

omit [BEq D] [LT D] [DecidableLT D] in
/-- `csr` keeps the cached copy up to date. -/
theorem Cached.csr (cached : Cached e) {order : IterOrder} {c : CSRGraph W}
    (stepped : e.csr order = Outcome.returned (e', c)) : Cached e' := by
  rcases csr_returned stepped with ⟨-, rfl, -⟩ | ⟨-, built, rfl⟩
  · exact cached
  · refine ⟨cached.nonneg, ?_⟩
    intro _
    obtain ⟨compactable, describes⟩ := describes_iff cached.nonneg (labelString_ok e) built
    constructor
    · intro right
      obtain ⟨labels, ids, nodes, edges, total⟩ := compactable
        ⟨right.named, right.unnamed, right.slots, right.lengths, right.noOther⟩
      exact ⟨labels, ids, nodes, edges, total⟩
    · intro right
      obtain ⟨named, unnamed, slots, lengths, noOther⟩ := describes
        ⟨right.labels, right.ids, right.nodes, right.edges, right.total⟩
      exact ⟨named, unnamed, slots, lengths, noOther⟩

theorem CsrReachable.cached (reached : CsrReachable e) : Cached e := by
  induction reached with
  | empty => exact cached_empty
  | addNode _ id label props low high ih =>
    refine cached_of_dirty ?_ rfl
    intro id' node
    simp only [DynamicGraph.hasNode, GraphEngine.addNode, DynamicGraph.addNode,
      UnorderedMap.find_set] at node
    by_cases same : id' = id
    · rw [same]
      exact low
    · rw [if_neg same] at node
      exact ih.nonneg id' node
  | addEdge _ fromId toId rel weight ih => exact cached_of_dirty ih.nonneg rfl
  | removeNode _ id stepped ih =>
    obtain ⟨-, -, graph⟩ := removeNode_returned stepped
    refine cached_of_dirty ?_ (by rw [graph]; rfl)
    intro id' node
    rw [graph, DynamicGraph.hasNode, find_removeNode] at node
    split at node
    · cases node
    · exact ih.nonneg id' node
  | removeEdge _ fromId toId rel ih => exact cached_of_dirty ih.nonneg rfl
  | csr _ order stepped ih => exact ih.csr stepped

omit [BEq D] [LT D] [DecidableLT D] in
/-- A graph that can be compacted is described by what `csr` returns. -/
theorem Cached.describes (cached : Cached e) (compactable : Compactable e.graph)
    (order : IterOrder) :
    ∃ e' c, e.csr order = Outcome.returned (e', c) ∧ Describes c e.graph := by
  cases dirty : e.graph.dirty with
  | false =>
    refine ⟨e, e.compacted, ?_, (cached.fresh dirty).mpr compactable⟩
    rw [GraphEngine.csr, dirty]
    exact if_neg (by decide)
  | true =>
    obtain ⟨c, built, describes⟩ := buildCsr_spec cached.nonneg compactable (labelString_ok e) order
    refine ⟨{ e with compacted := c, graph := e.graph.clearDirty }, c, ?_, describes⟩
    rw [GraphEngine.csr, dirty, if_pos rfl]
    refine Outcome.bind_eq_returned.mpr ⟨_, ?_, rfl⟩
    exact Outcome.bind_eq_returned.mpr ⟨c, built, rfl⟩

/-- In every engine that the calls lead to, `csr()` describes the graph restricted to the
nodes with metadata exactly if the graph can be compacted. -/
theorem csr_describes_iff (reached : CsrReachable e) (order : IterOrder) :
    (∃ e' c, e.csr order = Outcome.returned (e', c) ∧ Describes c e.graph) ↔
      Compactable e.graph := by
  have cached := reached.cached
  constructor
  · rintro ⟨e', c, stepped, describes⟩
    rcases csr_returned stepped with ⟨clean, rfl, rfl⟩ | ⟨-, built, -⟩
    · exact (cached.fresh clean).mp describes
    · exact (describes_iff cached.nonneg (labelString_ok e) built).mp describes
  · intro compactable
    exact cached.describes compactable order

end

/-- Two nodes and an edge between them. -/
def linkedPair : GraphEngine Int Int :=
  ((empty.addNode 1 (str "a") []).addNode 5 (str "b") []).addEdge 1 5 (str "r") 7

theorem csr_describes_iff_linkedPair :
    ∃ e' c, linkedPair.csr .asListed = Outcome.returned (e', c) ∧ Describes c linkedPair.graph :=
  (csr_describes_iff (((CsrReachable.empty.addNode 1 (str "a") [] (by decide) (by decide)).addNode
    5 (str "b") [] (by decide) (by decide)).addEdge 1 5 (str "r") 7) .asListed).mpr
    (by decide)

/-- A node and an edge to an id that was never added. -/
def danglingEdge : GraphEngine Int Int :=
  (empty.addNode 1 (str "a") []).addEdge 1 2 (str "r") 7

/-- The range of the node has a slot, which no edge filled. -/
theorem csr_danglingEdge : CsrReachable danglingEdge ∧ innerEdges danglingEdge.graph 1 = [] ∧
    ((danglingEdge.csr .asListed).run.map fun r => r.toOption.map fun p =>
      (p.2.neighborRange (p.2.toIdx 1), p.2.targets)) = some (some (some (0, 1), [0])) ∧
    ¬ ∃ e' c, danglingEdge.csr .asListed = Outcome.returned (e', c) ∧
      Describes c danglingEdge.graph := by
  have ran : ((danglingEdge.csr .asListed).run.map fun r => r.toOption.map fun p =>
      (p.2.neighborRange (p.2.toIdx 1), p.2.targets)) = some (some (some (0, 1), [0])) := by decide +kernel
  have noEdge : innerEdges danglingEdge.graph 1 = [] := by decide
  refine ⟨(CsrReachable.empty.addNode 1 (str "a") [] (by decide) (by decide)).addEdge 1 2
    (str "r") 7, noEdge, ran, ?_⟩
  rintro ⟨e', c, stepped, describes⟩
  obtain ⟨first, range, -⟩ := describes.slots 1 (by decide)
  rw [noEdge, List.length_nil] at range
  rw [stepped] at ran
  have slots := congrArg Prod.fst (Option.some_inj.mp (Option.some_inj.mp ran))
  rw [show c.neighborRange (c.toIdx 1) = some (0, 1) from slots, Option.some_inj,
    Prod.mk.injEq] at range
  omega

end FastGraph.GraphEngine
