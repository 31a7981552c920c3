import FastGraph.Graph.Proofs.Compaction

/-!
# Copies of graphs whose edges join nodes

Where every edge joins nodes, `csr()` returns exactly if the graph can be compacted. The copy
then has all the edges, and it numbers the nodes in the order of their ids.
-/

namespace FastGraph.CSRGraph
open Adjacency

variable {W : Type} {g : DynamicGraph W} {c c' : CSRGraph W} {ids : List Int}

/-- What holds of all edges is a condition on the listed ones. -/
theorem forall_edges_iff {ok : Int → Edge W → Prop} : (∀ u, ∀ e ∈ g.neighbors u, ok u e) ↔
    ∀ r ∈ g.adj.toList, ∀ e ∈ r.2, ok r.1 e := by
  constructor
  · intro all r mem e edge
    have found := UnorderedMap.mem_toList.mp (show (r.1, r.2) ∈ g.adj.toList from mem)
    exact all r.1 e (by rw [DynamicGraph.neighbors, row, found]; exact edge)
  · intro each u e edge
    rw [DynamicGraph.neighbors, row] at edge
    cases found : g.adj.find u with
    | none =>
      rw [found] at edge
      cases edge
    | some es =>
      rw [found] at edge
      exact each (u, es) (UnorderedMap.mem_toList.mpr found) e edge

/-- Every edge joins two nodes. -/
def Joined (g : DynamicGraph W) : Prop :=
  ∀ u, ∀ e ∈ g.neighbors u, g.hasNode u ∧ g.hasNode e.toId

instance decidableJoined (g : DynamicGraph W) : Decidable (Joined g) :=
  decidable_of_iff' _ forall_edges_iff

theorem Joined.innerEdges_eq (joined : Joined g) (u : Int) : innerEdges g u = g.neighbors u := by
  rw [innerEdges, List.filter_eq_self]
  intro e edge
  exact (joined u e edge).2

/-- The slot `k` has the edge `e`. -/
structure HasEdge (c : CSRGraph W) (k : Int) (e : Edge W) : Prop where
  target : vget c.targets k = some (c.toIdx e.toId)
  weight : vget c.weights k = some e.weight

/-- The copy has the nodes of the graph, in the order of their ids, and all its edges. -/
structure Copies (c : CSRGraph W) (g : DynamicGraph W) : Prop where
  number : ∀ u, g.hasNode u → 0 ≤ c.toIdx u ∧ c.toIdx u < c.nodeCount
  named : ∀ u, g.hasNode u → vget c.idxToId (c.toIdx u) = some u
  ascending : ∀ u v, g.hasNode u → g.hasNode v → (c.toIdx u < c.toIdx v ↔ u < v)
  slots : ∀ u, g.hasNode u → ∃ first last, c.neighborRange (c.toIdx u) = some (first, last) ∧
    List.Forall₂ (HasEdge c) (slots first last) (g.neighbors u)
  inner : ∀ u, ∀ e ∈ g.neighbors u, g.hasNode e.toId

theorem Copies.toIdx_inj (copies : Copies c g) {u v : Int} (node : g.hasNode u)
    (node' : g.hasNode v) : c.toIdx u = c.toIdx v ↔ u = v := by
  constructor
  · intro same
    have name := copies.named u node
    rw [same, copies.named v node', Option.some_inj] at name
    exact name.symm
  · rintro rfl
    rfl

/-- The slots of a range that begins at `first`. -/
theorem forall₂_slots {R : Int → Edge W → Prop} (first : Int) (es : List (Edge W))
    (each : ∀ (j : Nat) e, es[j]? = some e → R (first + j) e) :
    List.Forall₂ R (slots first (first + es.length)) es := by
  have length : (slots first (first + es.length)).length = es.length := by
    rw [slots, List.length_map, List.length_range]
    omega
  refine List.forall₂_iff_get.mpr ⟨length, ?_⟩
  intro i inside inside'
  have here := each i es[i] (List.getElem?_eq_getElem inside')
  simpa [slots] using here

/-! ### The order of the numbers -/

/-- The last two parts keep the numbers. -/
theorem buildCsr_numbered [Zero W] (nonneg : ∀ id, g.hasNode id → 0 ≤ id)
    {labelString : CharPtr → Except StdException Bytes} {order : IterOrder}
    (built : buildCsr g labelString order = Outcome.returned c) :
    Numbered c (nodeIds g order) := by
  obtain ⟨c₁, targets, weights, relTypes, labels, props, numbered, -, -, -, -, -, rfl⟩ :=
    buildCsr_made nonneg built
  exact ⟨numbered.distinct, numbered.short, numbered.nodeCount, numbered.idxToId,
    numbered.number, numbered.others⟩

theorem ascending_nodeIds (g : DynamicGraph W) (order : IterOrder) :
    (nodeIds g order).Pairwise (· < ·) := by
  have sorted : (nodeIds g order).Pairwise (· ≤ ·) := List.pairwise_mergeSort' (· ≤ ·) _
  exact (sorted.and (nodup_nodeIds g order)).imp fun both => lt_of_le_of_ne both.1 both.2

/-- The numbers of nodes are in the order of their ids. -/
theorem Numbered.ascending (numbered : Numbered c ids) (sorted : ids.Pairwise (· < ·))
    {u v : Int} (mem : u ∈ ids) (mem' : v ∈ ids) : c.toIdx u < c.toIdx v ↔ u < v := by
  have forward : ∀ {u v : Int}, u ∈ ids → v ∈ ids → c.toIdx u < c.toIdx v → u < v := by
    intro u v mem mem' less
    obtain ⟨i, inside, here, number⟩ := numbered.of_mem mem
    obtain ⟨j, inside', there, number'⟩ := numbered.of_mem mem'
    obtain ⟨_, at_i⟩ := List.getElem?_eq_some_iff.mp here
    obtain ⟨_, at_j⟩ := List.getElem?_eq_some_iff.mp there
    have ordered := List.pairwise_iff_getElem.mp sorted i j inside inside' (by omega)
    rwa [at_i, at_j] at ordered
  refine ⟨forward mem mem', ?_⟩
  intro less
  rcases lt_trichotomy (c.toIdx u) (c.toIdx v) with before | same | after
  · exact before
  · obtain ⟨i, -, -, number⟩ := numbered.of_mem mem
    exact absurd (numbered.inj (by omega) same) less.ne
  · exact absurd (forward mem' mem after) less.asymm

/-- A right copy of a graph whose edges join nodes has its nodes in order and its edges. -/
theorem copies_of_describes [Zero W] (nonneg : ∀ id, g.hasNode id → 0 ≤ id)
    {labelString : CharPtr → Except StdException Bytes} {order : IterOrder}
    (built : buildCsr g labelString order = Outcome.returned c) (describes : Describes c g)
    (joined : Joined g) : Copies c g where
  number := by
    intro u node
    have numbered := buildCsr_numbered nonneg built
    obtain ⟨i, inside, -, number⟩ := numbered.of_mem (mem_nodeIds.mpr node)
    rw [number, numbered.nodeCount]
    omega
  named := describes.named
  ascending := fun u v node node' => (buildCsr_numbered nonneg built).ascending
    (ascending_nodeIds g order) (mem_nodeIds.mpr node) (mem_nodeIds.mpr node')
  slots := by
    intro u node
    obtain ⟨first, range, each⟩ := describes.slots u node
    rw [joined.innerEdges_eq] at range each
    refine ⟨first, _, range, forall₂_slots first _ ?_⟩
    intro j e here
    obtain ⟨target, weight, -⟩ := each j e here
    exact ⟨target, weight⟩
  inner := fun u e edge => (joined u e edge).2

/-! ### When the copy is made -/

/-- Each edge of a row that is copied takes a slot. -/
theorem foldlM_fillEdge_length {i : Int} (es : List (Edge W)) {a a' : EdgeArrays W}
    (known : ∀ e ∈ es, 0 ≤ c.toIdx e.toId)
    (filled : es.foldlM (fillEdge c i) a = some a') :
    a'.targets.length = a.targets.length ∧
      ∀ pos, vget a.cursor i = some pos → es ≠ [] →
        0 ≤ pos ∧ pos + es.length ≤ a.targets.length := by
  induction es generalizing a with
  | nil =>
    cases filled
    exact ⟨rfl, fun _ _ nonempty => absurd rfl nonempty⟩
  | cons e es ih =>
    rw [List.foldlM_cons] at filled
    obtain ⟨a₁, first, rest⟩ := Option.bind_eq_some_iff.mp filled
    rw [fillEdge, if_neg (not_lt.mpr (known e List.mem_cons_self))] at first
    obtain ⟨pos, here, first⟩ := Option.bind_eq_some_iff.mp first
    obtain ⟨next, sum, first⟩ := Option.bind_eq_some_iff.mp first
    obtain ⟨cursor, moved, first⟩ := Option.bind_eq_some_iff.mp first
    obtain ⟨targets, stored, first⟩ := Option.bind_eq_some_iff.mp first
    obtain ⟨weights, -, first⟩ := Option.bind_eq_some_iff.mp first
    obtain ⟨relTypes, -, first⟩ := Option.bind_eq_some_iff.mp first
    cases first
    have inside := vset_inside stored
    have length := length_vset stored
    have succ := (intAdd_eq_some.mp sum).1
    obtain ⟨same, later⟩ := ih (fun e' mem => known e' (List.mem_cons_of_mem _ mem)) rest
    refine ⟨same.trans length, ?_⟩
    intro pos' here' _
    rw [here, Option.some_inj] at here'
    subst here'
    refine ⟨inside.1, ?_⟩
    cases es with
    | nil =>
      rw [List.length_singleton]
      omega
    | cons e' es =>
      have bound := (later next (by rw [vget_vset moved, if_pos rfl]) (by simp)).2
      rw [List.length_cons, length] at bound
      rw [List.length_cons, List.length_cons]
      omega

/-- A row whose edges were all copied has fewer edges than there are slots. -/
theorem foldlM_fillRow_length {rows : List (Int × List (Edge W))} {a a' : EdgeArrays W}
    (known : ∀ r ∈ rows, 0 ≤ c.toIdx r.1 → ∀ e ∈ r.2, 0 ≤ c.toIdx e.toId)
    (filled : rows.foldlM (fillRow c) a = some a') :
    ∀ r ∈ rows, 0 ≤ c.toIdx r.1 → r.2.length ≤ a.targets.length := by
  induction rows generalizing a with
  | nil =>
    intro r mem
    cases mem
  | cons r rows ih =>
    rw [List.foldlM_cons] at filled
    obtain ⟨a₁, first, rest⟩ := Option.bind_eq_some_iff.mp filled
    have later := ih (fun r' mem => known r' (List.mem_cons_of_mem _ mem)) rest
    rw [fillRow] at first
    split at first
    · rename_i negative
      cases first
      intro r' mem node
      rcases List.mem_cons.mp mem with rfl | old
      · exact absurd node (not_le.mpr negative)
      · exact later r' old node
    · rename_i nonneg
      obtain ⟨same, bound⟩ := foldlM_fillEdge_length r.2
        (known r List.mem_cons_self (not_lt.mp nonneg)) first
      rw [same] at later
      intro r' mem node
      rcases List.mem_cons.mp mem with rfl | old
      · cases es : r'.2 with
        | nil => exact Nat.zero_le _
        | cons e es' =>
          rw [es] at first bound
          -- the first edge has read the cursor
          rw [List.foldlM_cons] at first
          obtain ⟨_, one, -⟩ := Option.bind_eq_some_iff.mp first
          have target := known r' List.mem_cons_self node e (by rw [es]; exact List.mem_cons_self)
          rw [fillEdge, if_neg (not_lt.mpr target)] at one
          obtain ⟨pos, here, -⟩ := Option.bind_eq_some_iff.mp one
          have := bound pos here (by simp)
          omega
      · exact later r' old node

/-- Where every edge joins nodes, a graph of which a copy was made can be compacted. -/
theorem compactable_of_joined [Zero W] (nonneg : ∀ id, g.hasNode id → 0 ≤ id)
    {labelString : CharPtr → Except StdException Bytes}
    (text : ∀ ptr, (∃ s, labelString ptr = .ok s) ↔ ptr ≠ none) {order : IterOrder}
    (built : buildCsr g labelString order = Outcome.returned c) (joined : Joined g) :
    Compactable g := by
  refine compactable_of_made nonneg text built ?_
  obtain ⟨c₁, targets, weights, relTypes, labels, props, numbered, -, -, last, third, -, -⟩ :=
    buildCsr_made nonneg built
  intro u node
  rw [joined.innerEdges_eq]
  cases found : g.adj.find u with
  | none =>
    have empty : g.neighbors u = [] := by rw [DynamicGraph.neighbors, row, found]; rfl
    rw [empty, List.length_nil, Nat.cast_zero, toInt32_of_range (by omega) (by omega)]
  | some es =>
    have list : g.neighbors u = es := by rw [DynamicGraph.neighbors, row, found]; rfl
    obtain ⟨room, made, third⟩ := Outcome.bind_eq_returned.mp third
    obtain ⟨_, -, third⟩ := Outcome.bind_eq_returned.mp third
    obtain ⟨_, -, third⟩ := Outcome.bind_eq_returned.mp third
    obtain ⟨a, filled, -⟩ := Outcome.bind_eq_returned.mp third
    rw [Outcome.ofOption_eq_returned] at filled
    obtain ⟨positive, slots⟩ := vnew_eq_returned.mp made
    have known : ∀ v, g.hasNode v → 0 ≤ (withOffsets c₁ g (nodeIds g order)).toIdx v :=
      fun v node => numbered.toIdx_nonneg_iff.mpr (mem_nodeIds.mpr node)
    have few := foldlM_fillRow_length (fun r mem _ e edge => by
      have here := mem_rows.mp (show (r.1, r.2) ∈ order.permute g.adj.toList from mem)
      have among : e ∈ g.neighbors r.1 := by rw [DynamicGraph.neighbors, row, here]; exact edge
      exact known e.toId (joined r.1 e among).2) filled (u, es) (mem_rows.mpr found) (known u node)
    subst slots
    have fewer : es.length ≤ ((degrees g (nodeIds g order)).sum).toNat := by
      simpa [withOffsets] using few
    rw [list, toInt32_of_range (by omega) (by omega)]

end FastGraph.CSRGraph

namespace FastGraph.GraphEngine
open CSRGraph

variable {W D : Type} [Zero W] [BEq D] [LT D] [DecidableLT D] {e e' : GraphEngine W D}

/-- The copy of an engine that is not dirty was made of its graph, unless that has no nodes. -/
theorem CsrReachable.made (reached : CsrReachable e) (clean : e.graph.dirty = false) :
    (∀ id, ¬ e.graph.hasNode id) ∨
      ∃ order, buildCsr e.graph e.labelString order = Outcome.returned e.compacted := by
  induction reached with
  | empty => exact Or.inl fun id node => by cases node
  | addNode => cases clean
  | addEdge => cases clean
  | removeNode _ id stepped =>
    obtain ⟨-, -, graph⟩ := removeNode_returned stepped
    rw [graph] at clean
    cases clean
  | removeEdge => cases clean
  | csr _ order stepped ih =>
    rcases csr_returned stepped with ⟨before, rfl, -⟩ | ⟨-, built, rfl⟩
    · exact ih before
    · exact Or.inr ⟨order, built⟩

/-- What `csr()` returns was made of the graph, if that has a node. -/
theorem csr_made (reached : CsrReachable e) {order : IterOrder} {c : CSRGraph W}
    (stepped : e.csr order = Outcome.returned (e', c)) {s : Int} (node : e.graph.hasNode s) :
    ∃ order, buildCsr e.graph e.labelString order = Outcome.returned c := by
  rcases csr_returned stepped with ⟨clean, rfl, rfl⟩ | ⟨-, built, -⟩
  · exact (reached.made clean).resolve_left fun none => none s node
  · exact ⟨order, built⟩

/-- Where every edge joins nodes, what `csr()` returns has the nodes and the edges of the
graph. -/
theorem copies_of_csr (reached : CsrReachable e) (joined : Joined e.graph) {order : IterOrder}
    {c : CSRGraph W} (stepped : e.csr order = Outcome.returned (e', c)) {s : Int}
    (node : e.graph.hasNode s) : Compactable e.graph ∧ Copies c e.graph := by
  obtain ⟨order', built⟩ := csr_made reached stepped node
  have nonneg := reached.cached.nonneg
  have compactable := compactable_of_joined nonneg (labelString_ok e) built joined
  have describes := (describes_iff nonneg (labelString_ok e) built).mpr compactable
  exact ⟨compactable, copies_of_describes nonneg built describes joined⟩

end FastGraph.GraphEngine
