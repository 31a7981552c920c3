import FastGraph.Graph.IdealGraph
import FastGraph.Graph.Proofs.RemoveNode

/-!
# The two maps are the one list

The lists of both adjacency maps are what leaves and what enters the nodes in one list of edges, in its
order. Every mutator keeps this, and so the graph answers as the multigraph does.
-/

namespace FastGraph.DynamicGraph
open Adjacency Multigraph IdealGraph

section
variable {K V : Type} [DecidableEq K]

/-- The size of a map is the number of its keys. -/
theorem size_eq_ncard (m : UnorderedMap K V) : m.size = {k | m.find k ≠ none}.ncard := by
  have keys : {k | m.find k ≠ none} = ((m.toList.map Prod.fst).toFinset : Set K) := by
    ext k
    rw [Set.mem_ofPred_eq, ← not_iff_not, not_not, UnorderedMap.find_eq_none_iff,
      UnorderedMap.map_fst_toList, List.coe_toFinset]
    rfl
  rw [keys, Set.ncard_coe_finset, List.toFinset_card_of_nodup (UnorderedMap.nodup_keys m),
    List.length_map]
  simp [UnorderedMap.size, UnorderedMap.toList]

end

section
variable {W : Type} {g : DynamicGraph W} {G : IdealGraph W} {m m' : AdjMap W}
  {es : List (Arrow Int (Bytes × W))}

/-! ### One direction -/

/-- The lists of the map are what leaves the nodes. -/
def Lists (m : AdjMap W) (es : List (Arrow Int (Bytes × W))) : Prop :=
  ∀ id, row m id = (leaving es id).map edge

/-- An edge as an arc of the map. -/
def arcOf (a : Arrow Int (Bytes × W)) : Int × Edge W := (a.source, edge (a.target, a.label))

/-- The arcs of the map are the edges, the order forgotten. -/
theorem Lists.arcs [DecidableEq W] (lists : Lists m es) :
    arcs m = (es.map arcOf : List (Int × Edge W)) := by
  rw [arcs_eq_iff]
  intro a e
  rw [lists, Multiset.coe_count]
  unfold List.count
  rw [List.countP_map, List.countP_map, countP_leaving]
  refine List.countP_congr fun x _ => ?_
  simp [arcOf, Prod.ext_iff]

theorem Lists.congr (lists : Lists m es) (same : ∀ id, row m' id = row m id) : Lists m' es :=
  fun id => (same id).trans (lists id)

/-- A new edge is the last one in the list of its source. -/
theorem Lists.snoc (lists : Lists m es) (fromId toId : Int) (rel : Bytes) (weight : W) :
    Lists (m.set fromId (row m fromId ++ [⟨toId, rel, weight⟩]))
      (es ++ [⟨fromId, toId, (rel, weight)⟩]) := by
  intro id
  rw [row_set, leaving_snoc, lists, lists]
  split
  · rename_i here
    rw [here, List.map_append]
    rfl
  · rfl

/-- `remove_edge` takes the edges out of the list of one node. -/
theorem Lists.takeOut (lists : Lists m es) (fromId toId : Int) (rel : Bytes) :
    Lists (m.set fromId ((row m fromId).filter fun e => !matchesEdge toId rel e))
      (es.filter (!joins fromId toId rel ·)) := by
  intro id
  rw [row_set, leaving_filter, lists, lists]
  split
  · rename_i here
    subst here
    rw [List.filter_map]
    congr 2
    funext x
    simp [joins, matchesEdge, edge]
    rfl
  · rename_i other
    rw [List.filter_eq_self.mpr]
    intro x _
    simp [joins, other]

/-- `remove_node` empties the list of the node and takes the edges to it out of the others. -/
theorem Lists.without (lists : Lists m es) {id : Int}
    (rows : ∀ u, row m' u = if u = id then [] else (row m u).filter (·.toId ≠ id)) :
    Lists m' (es.filter (!touches id ·)) := by
  intro u
  rw [rows, leaving_filter, lists]
  split
  · rename_i here
    rw [List.filter_eq_nil_iff.mpr, List.map_nil]
    intro x _
    simp [touches, here]
  · rename_i other
    rw [List.filter_map]
    congr 2
    funext x
    simp [touches, other, edge]
    rfl

theorem joins_reversed (fromId toId : Int) (rel : Bytes) (a : Arrow Int (Bytes × W)) :
    joins toId fromId rel a.reversed = joins fromId toId rel a :=
  Bool.and_left_comm _ _ _

theorem touches_reversed (id : Int) (a : Arrow Int (Bytes × W)) :
    touches id a.reversed = touches id a :=
  Bool.or_comm _ _

/-! ### Both -/

/-- The maps and the numbers of a graph are those of the multigraph. -/
structure Represents (g : DynamicGraph W) (G : IdealGraph W) : Prop where
  nodes : ∀ id, g.nodes.find id = G.nodes id
  neighbors : Lists g.adj G.edges
  reverseNeighbors : Lists g.radj (G.edges.map Arrow.reversed)
  edgeCount : g.edgeCount = G.shown
  fits : IsInt g.edgeCount
  maxNodeId : g.maxNodeId = G.top

theorem represents_empty : Represents (empty : DynamicGraph W) IdealGraph.empty :=
  ⟨fun _ => rfl, fun _ => rfl, fun _ => rfl, rfl, toInt32_range 0, rfl⟩

/-- A graph of a multigraph has the same edges in both directions. -/
theorem Represents.mirrored [DecidableEq W] (rep : Represents g G) : Mirrored g.adj g.radj := by
  unfold Mirrored
  rw [rep.reverseNeighbors.arcs, rep.neighbors.arcs, Multiset.map_coe, List.map_map, List.map_map]
  rfl

theorem Represents.addNode (rep : Represents g G) (id : Int) (labelPtr : CharPtr) (props : Bytes) :
    Represents (g.addNode id labelPtr props) (G.apply (.addNode id labelPtr props)) := by
  constructor
  · intro id'
    refine (UnorderedMap.find_set g.nodes id id' _).trans ?_
    rw [rep.nodes]
    exact (Function.update_apply ..).symm
  · exact rep.neighbors.congr (row_addNode g.adj id)
  · exact rep.reverseNeighbors.congr (row_addNode g.radj id)
  · exact rep.edgeCount
  · exact rep.fits
  · change (if g.maxNodeId < id then id else g.maxNodeId) = max G.top id
    rw [← rep.maxNodeId]
    split <;> omega

theorem Represents.addEdge (rep : Represents g G) (fromId toId : Int) (rel : Bytes) (weight : W) :
    Represents (g.addEdge fromId toId rel weight) (G.apply (.addEdge fromId toId rel weight)) := by
  constructor
  · exact rep.nodes
  · exact rep.neighbors.snoc fromId toId rel weight
  · rw [IdealGraph.apply, List.map_append]
    exact rep.reverseNeighbors.snoc toId fromId rel weight
  · exact congrArg (fun c => toInt32 (c + 1)) rep.edgeCount
  · exact fits_apply rep.fits (.addEdge fromId toId rel weight)
  · exact rep.maxNodeId

theorem Represents.removeEdge [DecidableEq W] (rep : Represents g G) (fromId toId : Int)
    (rel : Bytes) :
    Represents (g.removeEdge fromId toId rel) (G.apply (.removeEdge fromId toId rel)) := by
  have counter := (removeEdge_spec rep.mirrored fromId toId rel).2.2
  constructor
  · exact rep.nodes
  · have forward : (g.removeEdge fromId toId rel).adj =
        g.adj.set fromId ((row g.adj fromId).filter fun e => !matchesEdge toId rel e) := by
      simp only [DynamicGraph.removeEdge, removeFrom_eq]
    rw [forward]
    exact rep.neighbors.takeOut fromId toId rel
  · have backward : (g.removeEdge fromId toId rel).radj =
        g.radj.set toId ((row g.radj toId).filter fun e => !matchesEdge fromId rel e) := by
      simp only [DynamicGraph.removeEdge, removeFrom_eq]
    have turned : (G.edges.filter (!joins fromId toId rel ·)).map Arrow.reversed =
        (G.edges.map Arrow.reversed).filter (!joins toId fromId rel ·) := by
      rw [List.filter_map]
      simp only [Function.comp_def, joins_reversed]
    rw [backward, IdealGraph.apply, turned]
    exact rep.reverseNeighbors.takeOut toId fromId rel
  · have found : g.matching fromId toId rel = G.edges.countP (joins fromId toId rel) := by
      rw [matching, DynamicGraph.neighbors, rep.neighbors, List.countP_map, countP_leaving]
      refine List.countP_congr fun a _ => ?_
      simp only [joins, matchesEdge, Function.comp_apply, Bool.and_eq_true, decide_eq_true_eq]
      rfl
    have any : G.edges.any (joins fromId toId rel) = true ↔
        G.edges.countP (joins fromId toId rel) ≠ 0 := by
      rw [Nat.ne_zero_iff_zero_lt, List.countP_pos_iff, List.any_eq_true]
    rw [counter, rep.edgeCount, found, IdealGraph.apply]
    dsimp only
    split
    · rw [if_neg (by rw [any]; omega)]
    · rw [if_pos (by rwa [any])]
  · exact fits_apply rep.fits (.removeEdge fromId toId rel)
  · exact rep.maxNodeId

theorem Represents.removeNode [DecidableEq W] (rep : Represents g G) (id : Int) :
    Represents (g.removeNode id) (G.apply (.removeNode id)) := by
  obtain ⟨rows, reverseRows⟩ := removeNode_rows rep.mirrored id
  have counter := edgeCount_removeNode rep.mirrored rep.fits id
  constructor
  · intro id'
    refine (UnorderedMap.find_erase g.nodes id id').trans ?_
    rw [rep.nodes]
    exact (Function.update_apply ..).symm
  · exact rep.neighbors.without rows
  · have turned : (G.edges.filter (!touches id ·)).map Arrow.reversed =
        (G.edges.map Arrow.reversed).filter (!touches id ·) := by
      rw [List.filter_map]
      simp only [Function.comp_def, touches_reversed]
    rw [IdealGraph.apply, turned]
    exact rep.reverseNeighbors.without reverseRows
  · have gone : g.touching id = G.edges.countP (touches id) := by
      rw [touching, rep.neighbors.arcs, Multiset.filter_coe, Multiset.coe_card,
        ← List.countP_eq_length_filter, List.countP_map]
      refine List.countP_congr fun a _ => ?_
      simp only [touches, Function.comp_apply, Bool.or_eq_true, decide_eq_true_eq]
      rfl
    rw [counter, gone, rep.edgeCount]
    rfl
  · exact fits_apply rep.fits (.removeNode id)
  · exact rep.maxNodeId

theorem Represents.apply [DecidableEq W] (rep : Represents g G) (op : Op W) :
    Represents (g.apply op) (G.apply op) := by
  cases op with
  | addNode id labelPtr props => exact rep.addNode id labelPtr props
  | removeNode id => exact rep.removeNode id
  | addEdge fromId toId rel weight => exact rep.addEdge fromId toId rel weight
  | removeEdge fromId toId rel => exact rep.removeEdge fromId toId rel

/-! ### Calls -/

/-- A call is answered as by the multigraph, and leaves the two in step. -/
theorem Represents.call [DecidableEq W] (rep : Represents g G) (c : Call W) :
    (g.call c).2 = (G.call c).2 ∧ Represents (g.call c).1 (G.call c).1 := by
  cases c with
  | change op => exact ⟨rfl, rep.apply op⟩
  | neighbors id => exact ⟨congrArg Reply.edges (rep.neighbors id), rep⟩
  | reverseNeighbors id => exact ⟨congrArg Reply.edges (rep.reverseNeighbors id), rep⟩
  | nodeMeta id => exact ⟨congrArg Reply.info (rep.nodes id), rep⟩
  | hasNode id =>
    exact ⟨congrArg (fun found : Option NodeMeta => Reply.flag found.isSome) (rep.nodes id), rep⟩
  | hasEdge fromId toId =>
    refine ⟨congrArg Reply.flag ?_, rep⟩
    rw [DynamicGraph.hasEdge, rep.neighbors, List.any_map, any_leaving]
    rfl
  | nodeCount =>
    refine ⟨congrArg (fun n : Nat => Reply.number (toInt32 n)) ?_, rep⟩
    rw [DynamicGraph.nodeCount, size_eq_ncard]
    simp only [rep.nodes]
  | edgeCount => exact ⟨congrArg Reply.number rep.edgeCount, rep⟩
  | maxNodeId => exact ⟨congrArg Reply.number rep.maxNodeId, rep⟩

theorem Represents.replies [DecidableEq W] (rep : Represents g G) (calls : List (Call W)) :
    DynamicGraph.replies calls g = IdealGraph.replies calls G := by
  induction calls generalizing g G with
  | nil => rfl
  | cons c calls ih =>
    obtain ⟨same, rep'⟩ := rep.call c
    rw [DynamicGraph.replies, IdealGraph.replies, same, ih rep']

/-- Every sequence of calls is answered as by a multigraph that is one list of edges. -/
theorem replies_of_empty (calls : List (Call W)) :
    replies calls empty = IdealGraph.replies calls IdealGraph.empty := by
  classical
  exact represents_empty.replies calls

/-! ### History -/

/-- What was there stays unless a mutation takes it out, and what was added comes behind it. -/
theorem edges_foldl (ops : List (Op W)) (G : IdealGraph W) :
    (ops.foldl IdealGraph.apply G).edges =
      G.edges.filter (fun a => !ops.any (removes a)) ++ survivors ops := by
  induction ops generalizing G with
  | nil => simp [survivors]
  | cons op ops ih =>
    rw [List.foldl_cons, ih]
    cases op with
    | addNode id labelPtr props => simp [IdealGraph.apply, removes, survivors]
    | removeNode id =>
      simp [IdealGraph.apply, removes, survivors, List.filter_filter, Bool.and_comm]
    | removeEdge fromId toId rel =>
      simp [IdealGraph.apply, removes, survivors, List.filter_filter, Bool.and_comm]
    | addEdge fromId toId rel weight =>
      rw [survivors]
      simp only [IdealGraph.apply, List.filter_append, List.any_cons, removes, Bool.false_or,
        List.append_assoc]
      congr 1
      split <;> simp_all

/-- What is known of a node is what was said of it last. -/
theorem nodes_foldl (ops : List (Op W)) (id : Int) :
    (ops.foldl IdealGraph.apply IdealGraph.empty).nodes id = lastTold ops id := by
  induction ops using List.reverseRecOn with
  | nil => rfl
  | append_singleton ops op ih =>
    rw [List.foldl_append, List.foldl_cons, List.foldl_nil, lastTold, List.reverse_append,
      List.reverse_singleton, List.singleton_append, List.findSome?_cons]
    cases op with
    | addNode id' labelPtr props =>
      simp only [IdealGraph.apply, tells, Function.update_apply, ih, lastTold]
      by_cases here : id = id'
      · simp [here]
      · simp [here, Ne.symm here]
    | removeNode id' =>
      simp only [IdealGraph.apply, tells, Function.update_apply, ih, lastTold]
      by_cases here : id = id'
      · simp [here]
      · simp [here, Ne.symm here]
    | addEdge fromId toId rel weight => exact ih
    | removeEdge fromId toId rel => exact ih

theorem Represents.run [DecidableEq W] (rep : Represents g G) (ops : List (Op W)) :
    Represents (g.run ops) (ops.foldl IdealGraph.apply G) := by
  induction ops generalizing g G with
  | nil => exact rep
  | cons op ops ih => exact ih (rep.apply op)

/-- The edges left by a history. -/
theorem edges_of_history (ops : List (Op W)) :
    (ops.foldl IdealGraph.apply IdealGraph.empty).edges = survivors ops :=
  edges_foldl ops IdealGraph.empty

/-- Both directions list what a history left, in its order. -/
structure Drawn (g : DynamicGraph W) (ops : List (Op W)) : Prop where
  neighbors : Lists g.adj (survivors ops)
  reverseNeighbors : Lists g.radj ((survivors ops).map Arrow.reversed)
  fits : IsInt g.edgeCount

theorem drawn_empty : Drawn (empty : DynamicGraph W) [] :=
  ⟨fun _ => rfl, fun _ => rfl, toInt32_range 0⟩

/-- Adding a node leaves the edges as they are. -/
theorem Drawn.addNode {ops : List (Op W)} (drawn : Drawn g ops) (id : Int) (labelPtr : CharPtr)
    (props : Bytes) : Drawn (g.addNode id labelPtr props) ops :=
  ⟨drawn.neighbors.congr (row_addNode g.adj id),
    drawn.reverseNeighbors.congr (row_addNode g.radj id), drawn.fits⟩

/-- A mutation is the last one of the history. -/
theorem Drawn.apply {ops : List (Op W)} (drawn : Drawn g ops) (op : Op W) :
    Drawn (g.apply op) (ops ++ [op]) := by
  classical
  have rep : Represents g ⟨g.nodes.find, survivors ops, g.edgeCount, g.maxNodeId⟩ :=
    ⟨fun _ => rfl, drawn.neighbors, drawn.reverseNeighbors, rfl, drawn.fits, rfl⟩
  have edges : (IdealGraph.apply ⟨g.nodes.find, survivors ops, g.edgeCount, g.maxNodeId⟩ op).edges =
      survivors (ops ++ [op]) := by
    rw [← edges_of_history, ← edges_of_history, List.foldl_append]
    cases op <;> rfl
  have rep' := rep.apply op
  exact ⟨edges ▸ rep'.neighbors, edges ▸ rep'.reverseNeighbors, rep'.fits⟩

/-- After every sequence of mutations the two directions list the edges that were added and not taken
out since, in the order in which they were added, and the nodes have what was said of them last. -/
theorem lists_run (ops : List (Op W)) (id : Int) :
    (run ops empty).neighbors id = (leaving (survivors ops) id).map edge ∧
      (run ops empty).reverseNeighbors id = (entering (survivors ops) id).map edge ∧
      (run ops empty).nodeMeta id = lastTold ops id := by
  classical
  have rep := represents_empty.run ops
  refine ⟨?_, ?_, (rep.nodes id).trans (nodes_foldl ops id)⟩
  · rw [← edges_of_history]
    exact rep.neighbors id
  · rw [← edges_of_history]
    exact rep.reverseNeighbors id

/-- A parallel pair, of which one is of another type, and a node that goes and comes back. -/
example : survivors [.addEdge 1 2 [] (), .addEdge 1 2 [7] (), .removeEdge 1 2 [], .addEdge 3 1 [] (),
    .removeNode 3, .addEdge 2 3 [] ()] = [⟨1, 2, ([7], ())⟩, ⟨2, 3, ([], ())⟩] := by
  decide

end

end FastGraph.DynamicGraph
