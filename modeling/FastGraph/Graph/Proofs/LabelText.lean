import FastGraph.Graph.Proofs.Compaction
import FastGraph.Graph.Proofs.NodesByLabel

/-!
# The text of a label

What `all_nodes` and `build_csr` read back as the label of a node is the C string at its
pointer.
-/

namespace FastGraph

namespace GraphEngine

variable {W D : Type} {e : GraphEngine W D}

/-- `all_nodes` lists the C string of each node. -/
theorem mem_allNodes {order : IterOrder} {ns : List (Int × Bytes × Bytes)}
    (listed : e.allNodes order = .ok ns) {id : Int} {label props : Bytes} :
    (id, label, props) ∈ ns ↔ ∃ info, e.graph.nodes.find id = some info ∧
      e.labelText info.labelPtr = label ∧ info.props = props := by
  have exactly : ns = (order.permute e.graph.nodes.toList).map fun n =>
      (n.1, e.labelText n.2.labelPtr, n.2.props) := by
    refine mapM_eq_map ?_ listed
    intro n b given
    cases pointer : n.2.labelPtr with
    | none =>
      rw [pointer] at given
      cases given
    | some ptr =>
      rw [pointer] at given
      cases given
      rfl
  rw [exactly, List.mem_map]
  constructor
  · rintro ⟨n, mem, ⟨⟩⟩
    rw [(order.perm _).mem_iff, UnorderedMap.mem_toList] at mem
    exact ⟨n.2, mem, rfl, rfl⟩
  · rintro ⟨info, stored, rfl, rfl⟩
    refine ⟨(id, info), ?_, rfl⟩
    rw [(order.perm _).mem_iff, UnorderedMap.mem_toList]
    exact stored

end GraphEngine

namespace CSRGraph

variable {W : Type} {c c' : CSRGraph W} {g : DynamicGraph W} {ids : List Int}

/-- One iteration of the loop over the metadata writes the label of its node. -/
theorem fillNode_returned {labelString : CharPtr → Except StdException Bytes}
    {texts texts' : List Bytes × List Bytes} {n : Int × NodeMeta} (number : 0 ≤ c.toIdx n.1)
    (filled : fillNode c labelString texts n = Outcome.returned texts') :
    ∃ s, labelString n.2.labelPtr = .ok s ∧ vset texts.1 (c.toIdx n.1) s = some texts'.1 := by
  rw [fillNode, if_neg (by omega)] at filled
  obtain ⟨s, label, filled⟩ := Outcome.bind_eq_returned.mp filled
  obtain ⟨labels, stored, filled⟩ := Outcome.bind_eq_returned.mp filled
  obtain ⟨props, -, filled⟩ := Outcome.bind_eq_returned.mp filled
  cases filled
  exact ⟨s, Outcome.ofExcept_eq_returned.mp label, Outcome.ofOption_eq_returned.mp stored⟩

/-- The whole loop: every node has its label, and the other elements are untouched. -/
theorem labels_foldlM_fillNode (numbered : Numbered c ids)
    {labelString : CharPtr → Except StdException Bytes} {ns : List (Int × NodeMeta)}
    (known : ∀ n ∈ ns, n.1 ∈ ids) (distinct : (ns.map Prod.fst).Nodup)
    {texts texts' : List Bytes × List Bytes}
    (ran : ns.foldlM (fillNode c labelString) texts = Outcome.returned texts') :
    (∀ n ∈ ns, ∃ s, labelString n.2.labelPtr = .ok s ∧
      vget texts'.1 (c.toIdx n.1) = some s) ∧
    ∀ i, (∀ n ∈ ns, i ≠ c.toIdx n.1) → vget texts'.1 i = vget texts.1 i := by
  induction ns generalizing texts with
  | nil =>
    cases ran
    simp
  | cons n ns ih =>
    rw [List.map_cons, List.nodup_cons] at distinct
    have number : 0 ≤ c.toIdx n.1 := numbered.toIdx_nonneg_iff.mpr (known n (by simp))
    obtain ⟨texts₁, first, rest⟩ := Outcome.bind_eq_returned.mp ran
    obtain ⟨s, label, stored⟩ := fillNode_returned number first
    obtain ⟨later, untouched⟩ := ih (fun m mem => known m (by simp [mem])) distinct.2 rest
    constructor
    · intro m mem
      rcases List.mem_cons.mp mem with rfl | mem
      · refine ⟨s, label, ?_⟩
        rw [untouched, vget_vset stored, if_pos rfl]
        intro m' mem' same
        have node := numbered.inj number same
        exact distinct.1 (List.mem_map.mpr ⟨m', mem', node.symm⟩)
      · exact later m mem
    · intro i apart
      rw [untouched i fun m mem => apart m (by simp [mem]), vget_vset stored,
        if_neg (apart n (by simp))]

/-- The labels that `build_csr` copies. -/
theorem labels_buildCsr [Zero W] (isInt : ∀ id, g.hasNode id → -2 ^ 31 ≤ id)
    {labelString : CharPtr → Except StdException Bytes} {order : IterOrder}
    (built : buildCsr g labelString order = Outcome.returned c') {id : Int} {info : NodeMeta}
    (stored : g.nodes.find id = some info) :
    ∃ s, labelString info.labelPtr = .ok s ∧ vget c'.labels (c'.toIdx id) = some s := by
  obtain ⟨c₁, c₂, c₃, first, second, third, fourth⟩ := buildCsr_eq_returned built
  have nonneg := fun id (node : g.hasNode id) => buildNodes_nonneg isInt first node
  have small := fun id (node : g.hasNode id) => buildNodes_small first node
  obtain ⟨c, first', numbered⟩ := buildNodes_spec nonneg small order
  rw [first, Outcome.returned_inj] at first'
  subst first'
  obtain ⟨-, -, rfl⟩ := (buildOffsets_eq_returned numbered order).mp second
  obtain ⟨targets, weights, relTypes, rfl⟩ := buildEdges_frame third
  have numbered₃ : Numbered { withOffsets c₁ g (nodeIds g order) with
      targets := targets, weights := weights, relTypes := relTypes } (nodeIds g order) :=
    ⟨numbered.distinct, numbered.short, numbered.nodeCount, numbered.idxToId, numbered.number,
      numbered.others⟩
  obtain ⟨labels, -, fourth⟩ := Outcome.bind_eq_returned.mp fourth
  obtain ⟨props, -, fourth⟩ := Outcome.bind_eq_returned.mp fourth
  obtain ⟨texts, ran, last⟩ := Outcome.bind_eq_returned.mp fourth
  cases last
  have keys : ((order.permute g.nodes.toList).map Prod.fst).Nodup :=
    ((order.perm _).map Prod.fst).nodup_iff.mpr (UnorderedMap.nodup_keys _)
  have mem : (id, info) ∈ order.permute g.nodes.toList := by
    rw [(order.perm _).mem_iff, UnorderedMap.mem_toList]
    exact stored
  exact (labels_foldlM_fillNode numbered₃ (fun n mem => mem_ids_of_nodes mem) keys ran).1 _ mem

end CSRGraph

end FastGraph
