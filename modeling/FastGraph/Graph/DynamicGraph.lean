import FastGraph.Memory.StringPool
import FastGraph.Misc.Adjacency

/-!
# The graph under edit

`DynamicGraph` (`graph/dynamic_graph.cpp`): nodes and two adjacency maps, one for each
direction of an edge. `row m id` is `m[id]` of an adjacency map as it is read. Weights are
of any type `W`; the server stores `float`s and only the traversals calculate with them. The
counter `edge_count_` is an `int`.
-/

namespace FastGraph
open Adjacency

/-- `struct Edge` (`dynamic_graph.hpp:7-11`). -/
structure Edge (W : Type) where
  toId : Int
  relType : Bytes
  weight : W
  deriving DecidableEq, Repr

/-- `struct NodeMeta` (`dynamic_graph.hpp:14-17`). -/
structure NodeMeta where
  labelPtr : CharPtr
  props : Bytes
  deriving DecidableEq, Repr

/-- An adjacency map. -/
abbrev AdjMap (W : Type) := UnorderedMap Int (List (Edge W))

/-- `class DynamicGraph` (`dynamic_graph.hpp:20-53`). -/
structure DynamicGraph (W : Type) where
  nodes : UnorderedMap Int NodeMeta
  adj : AdjMap W
  radj : AdjMap W
  edgeCount : Int
  maxNodeId : Int
  dirty : Bool

namespace DynamicGraph
variable {W : Type}

/-- A graph without nodes. -/
def empty : DynamicGraph W := ⟨∅, ∅, ∅, 0, -1, false⟩

/-- `DynamicGraph::add_node` (`dynamic_graph.cpp:6-14`). -/
def addNode (g : DynamicGraph W) (id : Int) (labelPtr : CharPtr) (props : Bytes) :
    DynamicGraph W :=
  { g with
    nodes := g.nodes.set id ⟨labelPtr, props⟩
    maxNodeId := if g.maxNodeId < id then id else g.maxNodeId
    adj := if (g.adj.find id).isNone then g.adj.set id [] else g.adj
    radj := if (g.radj.find id).isNone then g.radj.set id [] else g.radj
    dirty := true }

/-- One iteration of a loop of `remove_node` (`dynamic_graph.cpp:20-23`, `:32-34`): the edges
to `id` leave the list at the other end of `e`. -/
def detachEdge (id : Int) (other : AdjMap W × Int) (e : Edge W) : AdjMap W × Int :=
  (other.1.set e.toId ((row other.1 e.toId).filter (·.toId ≠ id)), toInt32 (other.2 - 1))

/-- Each half of `remove_node` (`dynamic_graph.cpp:17-27`, `:29-38`): the list of `id` in the
map `walked` is walked, the map `other` loses the edges back, and the list goes. -/
def detach (id : Int) (walked other : AdjMap W) (edgeCount : Int) :
    AdjMap W × AdjMap W × Int :=
  match walked.find id with
  | none => (walked, other, edgeCount)
  | some edges =>
    let (other, edgeCount) := edges.foldl (detachEdge id) (other, edgeCount)
    (walked.erase id, other, edgeCount)

/-- `DynamicGraph::remove_node` (`dynamic_graph.cpp:16-42`). -/
def removeNode (g : DynamicGraph W) (id : Int) : DynamicGraph W :=
  let (adj, radj, edgeCount) := detach id g.adj g.radj g.edgeCount
  let (radj, adj, edgeCount) := detach id radj adj edgeCount
  { g with
    nodes := g.nodes.erase id
    adj := adj
    radj := radj
    edgeCount := edgeCount
    dirty := true }

/-- `DynamicGraph::add_edge` (`dynamic_graph.cpp:44-50`). -/
def addEdge (g : DynamicGraph W) (fromId toId : Int) (rel : Bytes) (weight : W) : DynamicGraph W :=
  { g with
    adj := g.adj.set fromId (row g.adj fromId ++ [⟨toId, rel, weight⟩])
    radj := g.radj.set toId (row g.radj toId ++ [⟨fromId, rel, weight⟩])
    edgeCount := toInt32 (g.edgeCount + 1)
    dirty := true }

/-- The predicate of the lambda of `remove_edge` (`dynamic_graph.cpp:56`). -/
def matchesEdge (target : Int) (rel : Bytes) (e : Edge W) : Bool := e.toId = target ∧ e.relType = rel

/-- The lambda of `remove_edge` (`dynamic_graph.cpp:53-58`) on one list and the counter. -/
def removeFrom (target : Int) (rel : Bytes) (v : List (Edge W)) (edgeCount : Int) :
    List (Edge W) × Int :=
  if v.any (matchesEdge target rel) then
    (v.filter fun e => !matchesEdge target rel e, toInt32 (edgeCount - 1))
  else (v, edgeCount)

/-- `DynamicGraph::remove_edge` (`dynamic_graph.cpp:52-62`). -/
def removeEdge (g : DynamicGraph W) (fromId toId : Int) (rel : Bytes) : DynamicGraph W :=
  let (forward, edgeCount) := removeFrom toId rel (row g.adj fromId) g.edgeCount
  let (backward, edgeCount) := removeFrom fromId rel (row g.radj toId) edgeCount
  { g with
    adj := g.adj.set fromId forward
    radj := g.radj.set toId backward
    edgeCount := edgeCount
    dirty := true }

/-- `DynamicGraph::neighbors` (`dynamic_graph.cpp:64-67`). -/
def neighbors (g : DynamicGraph W) (id : Int) : List (Edge W) := row g.adj id

/-- `DynamicGraph::reverse_neighbors` (`dynamic_graph.cpp:69-72`). -/
def reverseNeighbors (g : DynamicGraph W) (id : Int) : List (Edge W) := row g.radj id

/-- `DynamicGraph::node_meta` (`dynamic_graph.cpp:74-77`). -/
def nodeMeta (g : DynamicGraph W) (id : Int) : Option NodeMeta := g.nodes.find id

/-- `DynamicGraph::has_node` (`dynamic_graph.cpp:79-81`). -/
def hasNode (g : DynamicGraph W) (id : Int) : Bool := (g.nodes.find id).isSome

/-- `DynamicGraph::has_edge` (`dynamic_graph.cpp:83-89`). -/
def hasEdge (g : DynamicGraph W) (fromId toId : Int) : Bool :=
  (row g.adj fromId).any (·.toId = toId)

/-- `DynamicGraph::node_count`, before the cast to `int`. -/
def nodeCount (g : DynamicGraph W) : Nat := g.nodes.size

/-- `DynamicGraph::clear_dirty`. -/
def clearDirty (g : DynamicGraph W) : DynamicGraph W := { g with dirty := false }

/-- The mutators of the graph. -/
inductive Op (W : Type) where
  | addNode (id : Int) (labelPtr : CharPtr) (props : Bytes)
  | removeNode (id : Int)
  | addEdge (fromId toId : Int) (rel : Bytes) (weight : W)
  | removeEdge (fromId toId : Int) (rel : Bytes)
  deriving DecidableEq, Repr

/-- One mutation. -/
def apply (g : DynamicGraph W) : Op W → DynamicGraph W
  | .addNode id labelPtr props => g.addNode id labelPtr props
  | .removeNode id => g.removeNode id
  | .addEdge fromId toId rel weight => g.addEdge fromId toId rel weight
  | .removeEdge fromId toId rel => g.removeEdge fromId toId rel

/-- The graph after a sequence of mutations. -/
def run (ops : List (Op W)) (g : DynamicGraph W) : DynamicGraph W := ops.foldl apply g

end DynamicGraph

end FastGraph
