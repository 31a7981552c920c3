import FastGraph.Graph.GraphEngine
import FastGraph.Memory.Proofs.StringPool
import FastGraph.Misc.Overwrite

/-!
# Labels of the graph engine

In every engine that calls lead to, a label pointer that is not null points at a string of
the label pool. Writing an engine's nodes and edges into an empty one, in any order, gives
the same labels, properties and edge lists, and the labels find room.
-/

namespace FastGraph.GraphEngine
open Adjacency StringPool

section
variable {W D : Type} {e e' : GraphEngine W D} {id : Int} {label props s : Bytes} {info : NodeMeta}
  {ptr : Nat}

/-- The pool is valid and every label pointer is one of its table. -/
structure Labelled (e : GraphEngine W D) : Prop where
  pool : e.labelPool.Valid
  labels : ∀ id info ptr, e.graph.nodes.find id = some info → info.labelPtr = some ptr →
    ∃ s, e.labelPool.table.find s = some ptr

theorem labelled_empty : Labelled (empty : GraphEngine W D) where
  pool := valid_empty
  labels _ _ _ stored := by cases stored

theorem Labelled.addNode (labelled : Labelled e) (id : Int) (label props : Bytes) :
    Labelled (e.addNode id label props) := by
  have interned := labelled.pool.intern label
  refine ⟨interned.valid, ?_⟩
  intro id' info ptr stored pointer
  simp only [GraphEngine.addNode, DynamicGraph.addNode, UnorderedMap.find_set] at stored
  by_cases same : id' = id
  · rw [if_pos same] at stored
    cases stored
    exact ⟨label, interned.found ptr pointer⟩
  · rw [if_neg same] at stored
    obtain ⟨s, found⟩ := labelled.labels id' info ptr stored pointer
    exact ⟨s, interned.kept s ptr found⟩

/-- Losing nodes keeps the labels. -/
theorem Labelled.of_nodes (labelled : Labelled e) (pool : e'.labelPool = e.labelPool)
    (fewer : ∀ id info, e'.graph.nodes.find id = some info → e.graph.nodes.find id = some info) :
    Labelled e' := by
  refine ⟨by rw [pool]; exact labelled.pool, ?_⟩
  intro id info ptr stored pointer
  rw [pool]
  exact labelled.labels id info ptr (fewer id info stored) pointer

theorem find_removeNode (g : DynamicGraph W) (id id' : Int) :
    (g.removeNode id).nodes.find id' = if id' = id then none else g.nodes.find id' :=
  UnorderedMap.find_erase g.nodes id id'

section
variable [BEq D] [LT D] [DecidableLT D]

/-- What `remove_node` does when it returns. -/
theorem removeNode_returned (stepped : e.removeNode id = Outcome.returned e') :
    e'.labelPool = e.labelPool ∧ e'.queryArena.cap = e.queryArena.cap ∧
      e'.graph = e.graph.removeNode id := by
  unfold removeNode at stepped
  split at stepped
  · cases stepped
    exact ⟨rfl, rfl, rfl⟩
  · rename_i info _
    cases label : e.labelString info.labelPtr with
    | error err =>
      rw [label] at stepped
      cases stepped
    | ok s =>
      rw [label] at stepped
      cases entries : e.propIndex.removeNode id with
      | none =>
        rw [entries] at stepped
        cases stepped
      | some p =>
        rw [entries] at stepped
        cases stepped
        exact ⟨rfl, rfl, rfl⟩

variable [Inhabited D]

/-- Every call keeps the labels. -/
theorem Labelled.apply (labelled : Labelled e) (op : Op W D)
    (stepped : e.apply op = Outcome.returned e') : Labelled e' := by
  cases op with
  | addNode id label props =>
    cases stepped
    exact labelled.addNode id label props
  | removeNode id =>
    obtain ⟨pool, -, graph⟩ := removeNode_returned stepped
    apply labelled.of_nodes pool
    intro id' info stored
    rw [graph, find_removeNode] at stored
    split at stored
    · cases stored
    · exact stored
  | addEdge fromId toId rel weight =>
    cases stepped
    exact labelled.of_nodes rfl fun _ _ stored => stored
  | removeEdge fromId toId rel =>
    cases stepped
    exact labelled.of_nodes rfl fun _ _ stored => stored
  | nodesByLabel label =>
    cases stepped
    have interned := labelled.pool.intern label
    refine ⟨interned.valid, ?_⟩
    intro id info ptr stored pointer
    obtain ⟨s, found⟩ := labelled.labels id info ptr stored pointer
    exact ⟨s, interned.kept s ptr found⟩
  | resetQueryArena =>
    cases stepped
    exact labelled.of_nodes rfl fun _ _ stored => stored
  | indexProperty label prop value nodeId coins =>
    simp only [GraphEngine.apply, indexProperty] at stepped
    cases added : e.propIndex.add label prop value nodeId coins with
    | none =>
      rw [added] at stepped
      cases stepped
    | some p =>
      rw [added] at stepped
      cases stepped
      exact labelled.of_nodes rfl fun _ _ stored => stored

/-- The node and the label that a call gives to `add_node`. -/
def Op.adds : Op W D → Option (Int × Bytes)
  | .addNode id label _ => some (id, label)
  | _ => none

/-- What a call does to the nodes, the labels and the arena, whether or not it throws. -/
theorem attempt_cases {op : Op W D} (step : e.attempt op = some e') :
    (∃ id label props, op = .addNode id label props ∧ e' = e.addNode id label props) ∨
    (∃ label, op = .nodesByLabel label ∧ e' = (e.nodesByLabel .asListed label).1) ∨
    op.adds = none ∧ e'.labelPool = e.labelPool ∧ e'.queryArena.cap = e.queryArena.cap ∧
      e'.graph.maxNodeId = e.graph.maxNodeId ∧
      (e'.graph.nodes = e.graph.nodes ∨
        ∃ id, op = .removeNode id ∧ e'.graph.nodes = e.graph.nodes.erase id) := by
  cases op with
  | addNode id label props =>
    cases step
    exact Or.inl ⟨id, label, props, rfl, rfl⟩
  | nodesByLabel label =>
    cases step
    exact Or.inr (Or.inl ⟨label, rfl, rfl⟩)
  | removeNode id =>
    refine Or.inr (Or.inr ⟨rfl, ?_⟩)
    rcases Outcome.cases (e.removeNode id) with stuck | ⟨ex, threw⟩ | ⟨e₁, returned⟩
    · simp only [attempt, GraphEngine.apply, stuck] at step
      cases step
    · simp only [attempt, GraphEngine.apply, threw] at step
      cases step
      exact ⟨rfl, rfl, rfl, Or.inl rfl⟩
    · have kept := removeNode_returned returned
      simp only [attempt, GraphEngine.apply, returned] at step
      cases step
      exact ⟨kept.1, kept.2.1, by rw [kept.2.2]; rfl, Or.inr ⟨id, rfl, by rw [kept.2.2]; rfl⟩⟩
  | addEdge fromId toId rel weight =>
    cases step
    exact Or.inr (Or.inr ⟨rfl, rfl, rfl, rfl, Or.inl rfl⟩)
  | removeEdge fromId toId rel =>
    cases step
    exact Or.inr (Or.inr ⟨rfl, rfl, rfl, rfl, Or.inl rfl⟩)
  | resetQueryArena =>
    cases step
    exact Or.inr (Or.inr ⟨rfl, rfl, rfl, rfl, Or.inl rfl⟩)
  | indexProperty label prop value nodeId coins =>
    refine Or.inr (Or.inr ⟨rfl, ?_⟩)
    simp only [attempt, GraphEngine.apply, indexProperty] at step
    cases added : e.propIndex.add label prop value nodeId coins with
    | none =>
      rw [added] at step
      cases step
    | some p =>
      rw [added] at step
      cases step
      exact ⟨rfl, rfl, rfl, Or.inl rfl⟩

theorem attempts_append (ops ops' : List (Op W D)) (e : GraphEngine W D) :
    attempts (ops ++ ops') e = (attempts ops e).bind (attempts ops') := List.foldlM_append

theorem Reachable.labelled (reached : Reachable e) : Labelled e := by
  induction reached with
  | empty => exact labelled_empty
  | step op _ stepped ih => exact ih.apply op stepped

end

/-- No node has an id above the largest one. -/
def IdsBounded (g : DynamicGraph W) : Prop :=
  ∀ id info, g.nodes.find id = some info → id ≤ g.maxNodeId

theorem IdsBounded.apply {g : DynamicGraph W} (bounded : IdsBounded g) (op : DynamicGraph.Op W) :
    IdsBounded (g.apply op) := by
  intro id info stored
  cases op with
  | addNode id' ptr props =>
    simp only [DynamicGraph.apply, DynamicGraph.addNode, UnorderedMap.find_set] at stored ⊢
    by_cases same : id = id'
    · split <;> omega
    · rw [if_neg same] at stored
      have old := bounded id info stored
      split <;> omega
  | removeNode id' =>
    simp only [DynamicGraph.apply] at stored
    rw [find_removeNode] at stored
    split at stored
    · cases stored
    · exact bounded id info stored
  | addEdge fromId toId rel weight => exact bounded id info stored
  | removeEdge fromId toId rel => exact bounded id info stored

theorem IdsBounded.run {g : DynamicGraph W} (bounded : IdsBounded g) (ops : List (DynamicGraph.Op W)) :
    IdsBounded (DynamicGraph.run ops g) := by
  induction ops generalizing g with
  | nil => exact bounded
  | cons op ops ih => exact ih (bounded.apply op)

theorem idsBounded_empty : IdsBounded (DynamicGraph.empty : DynamicGraph W) := by
  intro id info stored
  cases stored

/-! ### Listing nodes and edges -/

/-- Every label was interned, and from a string without NUL bytes. -/
def CleanLabels (e : GraphEngine W D) : Prop :=
  ∀ id info, e.graph.nodes.find id = some info →
    ∃ s ptr, info.labelPtr = some ptr ∧ e.labelPool.table.find s = some ptr ∧ 0 ∉ s

/-- A node as the commands and the snapshot see it: its label and its properties. -/
def nodeContents (e : GraphEngine W D) (id : Int) : Option (Except StdException Bytes × Bytes) :=
  (e.graph.nodeMeta id).map fun info => (e.labelString info.labelPtr, info.props)

/-- The label text behind a pointer. -/
def labelText (e : GraphEngine W D) (ptr : CharPtr) : Bytes := e.labelPool.cString (ptr.getD 0)

/-- `all_nodes` lists every node once, with its label and its properties. -/
theorem allNodes_spec (labelled : Labelled e) (clean : CleanLabels e) (order : IterOrder) :
    ∃ ns, e.allNodes order = .ok ns ∧ ns.length = e.graph.nodeCount ∧ (ns.map Prod.fst).Nodup ∧
      (∀ id, id ∉ ns.map Prod.fst → e.graph.nodes.find id = none) ∧
      ∀ id label props, (id, label, props) ∈ ns →
        label ∈ e.labelPool.strings ∧ 0 ∉ label ∧ e.nodeContents id = some (.ok label, props) := by
  have perm := order.perm e.graph.nodes.toList
  have ids : ((order.permute e.graph.nodes.toList).map fun n =>
      (n.1, e.labelText n.2.labelPtr, n.2.props)).map Prod.fst =
      (order.permute e.graph.nodes.toList).map Prod.fst := by
    rw [List.map_map]
    rfl
  refine ⟨(order.permute e.graph.nodes.toList).map fun n =>
    (n.1, e.labelText n.2.labelPtr, n.2.props), ?_, ?_, ?_, ?_, ?_⟩
  · apply mapM_eq_pure
    intro n mem
    have stored := UnorderedMap.mem_toList.mp (perm.subset mem)
    obtain ⟨s, ptr, pointer, -, -⟩ := clean n.1 n.2 stored
    simp only [labelString, labelText, pointer]
    rfl
  · rw [List.length_map, perm.length_eq, UnorderedMap.toList, List.length_map]
    rfl
  · rw [ids]
    exact (perm.map Prod.fst).nodup_iff.mpr (UnorderedMap.nodup_keys _)
  · intro id missing
    rw [ids, (perm.map Prod.fst).mem_iff, UnorderedMap.map_fst_toList] at missing
    exact (UnorderedMap.find_eq_none_iff _ _).mpr missing
  · intro id label props mem
    obtain ⟨n, inside, same⟩ := List.mem_map.mp mem
    cases same
    have stored := UnorderedMap.mem_toList.mp (perm.subset inside)
    obtain ⟨s, ptr, pointer, found, noNul⟩ := clean n.1 n.2 stored
    have text : e.labelText n.2.labelPtr = s := by
      rw [pointer]
      exact labelled.pool.cString found noNul
    rw [text]
    refine ⟨mem_strings.mpr (by rw [found]; rfl), noNul, ?_⟩
    simp only [nodeContents, DynamicGraph.nodeMeta, stored, Option.map_some, pointer, labelString,
      labelled.pool.cString found noNul]

/-- The rows of a map by key. -/
theorem filter_rows {V : Type} (rows : List (Int × List V)) (distinct : (rows.map Prod.fst).Nodup)
    (a : Int) :
    (a ∉ rows.map Prod.fst → (rows.flatMap fun r => r.2.map fun v => (r.1, v)).filter (·.1 = a) = []) ∧
    ∀ vs, (a, vs) ∈ rows →
      (rows.flatMap fun r => r.2.map fun v => (r.1, v)).filter (·.1 = a) = vs.map fun v => (a, v) := by
  induction rows with
  | nil => simp
  | cons r rows ih =>
    rw [List.map_cons, List.nodup_cons] at distinct
    obtain ⟨missing, present⟩ := ih distinct.2
    have others : r.1 ≠ a → (r.2.map fun v => (r.1, v)).filter (fun x => decide (x.1 = a)) = [] := by
      intro differ
      simp [List.filter_eq_nil_iff, differ]
    simp only [List.flatMap_cons, List.filter_append, List.map_cons, List.mem_cons, not_or]
    constructor
    · intro absent
      rw [others (Ne.symm absent.1), missing absent.2, List.append_nil]
    · intro vs mem
      rcases mem with rfl | later
      · rw [missing distinct.1, List.append_nil, List.filter_eq_self]
        simp
      · have differ : r.1 ≠ a := by
          rintro rfl
          exact distinct.1 (List.mem_map.mpr ⟨_, later, rfl⟩)
        rw [others differ, present vs later, List.nil_append]

/-- A walk over an adjacency map meets the edges of each source in the order of its list. -/
theorem filter_edges (g : DynamicGraph W) (order : IterOrder) (a : Int) :
    (((order.permute g.adj.toList).flatMap fun r => r.2.map fun edge => (r.1, edge)).filter
      (·.1 = a)).map Prod.snd = g.neighbors a := by
  have perm := order.perm g.adj.toList
  obtain ⟨missing, present⟩ := filter_rows (order.permute g.adj.toList)
    ((perm.map Prod.fst).nodup_iff.mpr (UnorderedMap.nodup_keys _)) a
  unfold DynamicGraph.neighbors row
  cases found : g.adj.find a with
  | none =>
    rw [missing]
    · rfl
    · rw [(perm.map Prod.fst).mem_iff, UnorderedMap.map_fst_toList]
      exact (UnorderedMap.find_eq_none_iff _ _).mp found
  | some es =>
    rw [present es (perm.mem_iff.mpr (UnorderedMap.mem_toList.mpr found)), List.map_map]
    exact List.map_id es

/-- `all_edges` lists the edges of each source in the order of its list. -/
theorem allEdges_filter (order : IterOrder) (a : Int) :
    ((e.allEdges order).filter (·.1 = a)).map Prod.snd = e.graph.neighbors a :=
  filter_edges e.graph order a

theorem mem_allEdges {order : IterOrder} {x : Int × Edge W} (mem : x ∈ e.allEdges order) :
    x.2 ∈ e.graph.neighbors x.1 := by
  rw [← allEdges_filter order x.1]
  exact List.mem_map_of_mem (List.mem_filter.mpr ⟨mem, by simp⟩)

theorem length_allEdges (order : IterOrder) : (e.allEdges order).length = total e.graph.adj := by
  have perm := order.perm e.graph.adj.toList
  simp only [allEdges, List.length_flatMap, List.length_map, total]
  exact (perm.map _).sum_eq

/-! ### Adding nodes and edges back -/

/-- `add_node` of every node of a list. -/
def addNodes (e : GraphEngine W D) (ns : List (Int × Bytes × Bytes)) : GraphEngine W D :=
  ns.foldl (fun e n => e.addNode n.1 n.2.1 n.2.2) e

/-- `add_edge` of every edge of a list. -/
def addEdges (e : GraphEngine W D) (es : List (Int × Edge W)) : GraphEngine W D :=
  es.foldl (fun e x => e.addEdge x.1 x.2.toId x.2.relType x.2.weight) e

theorem propIndex_addNodes (ns : List (Int × Bytes × Bytes)) (e : GraphEngine W D) :
    (e.addNodes ns).propIndex = e.propIndex := by
  induction ns generalizing e with
  | nil => rfl
  | cons n ns ih => exact ih (e.addNode n.1 n.2.1 n.2.2)

theorem propIndex_addEdges (es : List (Int × Edge W)) (e : GraphEngine W D) :
    (e.addEdges es).propIndex = e.propIndex := by
  induction es generalizing e with
  | nil => rfl
  | cons x es ih => exact ih (e.addEdge x.1 x.2.toId x.2.relType x.2.weight)

/-- `add_node` where the label finds room. -/
theorem addNode_spec (labelled : Labelled e) {T : Finset Bytes} (among : e.labelPool.strings ⊆ T)
    (mem : label ∈ T) (fits : ∑ t ∈ T, cost t ≤ 4 * 1024 * 1024) (id : Int) (props : Bytes) :
    Labelled (e.addNode id label props) ∧ (e.addNode id label props).labelPool.strings ⊆ T ∧
      (∀ t q, e.labelPool.table.find t = some q →
        (e.addNode id label props).labelPool.table.find t = some q) ∧
      ∃ ptr, (e.addNode id label props).labelPool.table.find label = some ptr ∧
        ∀ id', (e.addNode id label props).graph.nodes.find id' =
          if id' = id then some ⟨some ptr, props⟩ else e.graph.nodes.find id' := by
  have interned := labelled.pool.intern label
  obtain ⟨ptr, result, strings⟩ := labelled.pool.intern_fits among mem fits
  refine ⟨labelled.addNode id label props, strings, interned.kept, ptr, interned.found ptr result, ?_⟩
  intro id'
  simp only [addNode, DynamicGraph.addNode, UnorderedMap.find_set, result]

/-- Adding nodes with distinct ids, whose labels fit the pool together, stores them all. -/
theorem addNodes_spec {ns : List (Int × Bytes × Bytes)} (distinct : (ns.map Prod.fst).Nodup)
    {T : Finset Bytes} (fits : ∑ t ∈ T, cost t ≤ 4 * 1024 * 1024) (mem : ∀ n ∈ ns, n.2.1 ∈ T)
    (labelled : Labelled e) (among : e.labelPool.strings ⊆ T) :
    Labelled (e.addNodes ns) ∧
      (∀ t q, e.labelPool.table.find t = some q →
        (e.addNodes ns).labelPool.table.find t = some q) ∧
      (∀ id, id ∉ ns.map Prod.fst →
        (e.addNodes ns).graph.nodes.find id = e.graph.nodes.find id) ∧
      ∀ id label props, (id, label, props) ∈ ns →
        ∃ ptr, (e.addNodes ns).labelPool.table.find label = some ptr ∧
          (e.addNodes ns).graph.nodes.find id = some ⟨some ptr, props⟩ := by
  induction ns generalizing e with
  | nil => exact ⟨labelled, fun _ _ found => found, fun _ _ => rfl, by simp⟩
  | cons n ns ih =>
    rw [List.map_cons, List.nodup_cons] at distinct
    obtain ⟨labelled₁, among₁, kept₁, ptr, found, nodes₁⟩ :=
      addNode_spec labelled among (mem n (by simp)) fits n.1 n.2.2
    obtain ⟨labelled', kept, others, stored⟩ :=
      ih distinct.2 (fun m later => mem m (List.mem_cons_of_mem _ later)) labelled₁ among₁
    refine ⟨labelled', fun t q found => kept t q (kept₁ t q found), ?_, ?_⟩
    · intro id absent
      rw [List.map_cons, List.mem_cons, not_or] at absent
      refine (others id absent.2).trans ?_
      rw [nodes₁, if_neg absent.1]
    · intro id label props here
      rcases List.mem_cons.mp here with same | later
      · subst same
        refine ⟨ptr, kept _ _ found, (others id distinct.1).trans ?_⟩
        rw [nodes₁, if_pos rfl]
      · exact stored id label props later

/-- Opening an empty row changes no row. -/
theorem row_opened (m : AdjMap W) (id a : Int) :
    row (if (m.find id).isNone then m.set id [] else m) a = row m a := by
  split
  · rename_i unlisted
    rw [row_set]
    split
    · rename_i same
      rw [same, row, Option.isNone_iff_eq_none.mp unlisted]
      rfl
    · rfl
  · rfl

/-- Adding nodes adds no edges. -/
theorem edges_addNodes (ns : List (Int × Bytes × Bytes)) :
    (∀ a, (e.addNodes ns).graph.neighbors a = e.graph.neighbors a) ∧
      (∀ a, (e.addNodes ns).graph.reverseNeighbors a = e.graph.reverseNeighbors a) ∧
      (e.addNodes ns).graph.edgeCount = e.graph.edgeCount := by
  induction ns generalizing e with
  | nil => exact ⟨fun _ => rfl, fun _ => rfl, rfl⟩
  | cons n ns ih =>
    obtain ⟨forward, backward, count⟩ := ih (e := e.addNode n.1 n.2.1 n.2.2)
    refine ⟨?_, ?_, count⟩
    · intro a
      exact (forward a).trans (row_opened e.graph.adj n.1 a)
    · intro a
      exact (backward a).trans (row_opened e.graph.radj n.1 a)

theorem addNodes_append (ns ns' : List (Int × Bytes × Bytes)) (e : GraphEngine W D) :
    e.addNodes (ns ++ ns') = (e.addNodes ns).addNodes ns' := List.foldl_append

/-- Adding nodes leaves a label settled. -/
theorem settled_addNodes {ptr : CharPtr} (settled : Settled e.labelPool label ptr)
    (ns : List (Int × Bytes × Bytes)) : Settled (e.addNodes ns).labelPool label ptr := by
  induction ns generalizing e with
  | nil => exact settled
  | cons n ns ih => exact ih (e := e.addNode n.1 n.2.1 n.2.2) (settled.intern n.2.1)

/-- What a node writes under the id, in a pool that has its label. -/
def nodeWrites (pool : StringPool) (id : Int) (n : Int × Bytes × Bytes) : Option (Option NodeMeta) :=
  if id = n.1 then some (some ⟨(pool.intern n.2.1).2, n.2.2⟩) else none

/-- Adding nodes whose labels are settled changes the nodes alone. -/
theorem addNodes_settled {ns : List (Int × Bytes × Bytes)}
    (settled : ∀ n ∈ ns, ∃ ptr, Settled e.labelPool n.2.1 ptr) (id : Int) :
    (e.addNodes ns).labelPool = e.labelPool ∧ (e.addNodes ns).graph.nodes.find id =
      overwrite (nodeWrites e.labelPool id) ns (e.graph.nodes.find id) := by
  induction ns generalizing e with
  | nil => exact ⟨rfl, rfl⟩
  | cons n ns ih =>
    obtain ⟨ptr, first⟩ := settled n List.mem_cons_self
    have pool : (e.addNode n.1 n.2.1 n.2.2).labelPool = e.labelPool := congrArg Prod.fst first
    obtain ⟨kept, found⟩ := ih (e := e.addNode n.1 n.2.1 n.2.2)
      (fun m mem => by rw [pool]; exact settled m (List.mem_cons_of_mem _ mem))
    refine ⟨kept.trans pool, found.trans ?_⟩
    rw [pool]
    change overwrite _ ns _ = overwrite _ ns _
    congr 1
    simp only [GraphEngine.addNode, DynamicGraph.addNode, UnorderedMap.find_set, nodeWrites]
    split <;> rfl

/-- Adding edges appends each to the list of its source, in order, and touches nothing else. -/
theorem addEdges_spec (es : List (Int × Edge W)) :
    (e.addEdges es).labelPool = e.labelPool ∧ (e.addEdges es).graph.nodes = e.graph.nodes ∧
      ∀ a, (e.addEdges es).graph.neighbors a =
        e.graph.neighbors a ++ (es.filter (·.1 = a)).map Prod.snd := by
  induction es generalizing e with
  | nil => simp [addEdges]
  | cons x es ih =>
    obtain ⟨pool, nodes, rows⟩ := ih (e := e.addEdge x.1 x.2.toId x.2.relType x.2.weight)
    refine ⟨pool, nodes, ?_⟩
    intro a
    refine (rows a).trans ?_
    simp only [addEdge, DynamicGraph.addEdge, DynamicGraph.neighbors, row_set]
    by_cases same : x.1 = a
    · simp [same]
    · simp [same, Ne.symm same]

end

end FastGraph.GraphEngine
