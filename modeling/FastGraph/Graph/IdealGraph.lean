import FastGraph.Graph.DynamicGraph
import FastGraph.Misc.Multigraph
import Mathlib.Data.Set.Card
import Mathlib.Logic.Function.Basic

/-!
# What the graph is for

A directed multigraph: what is known of each node, and one list of the edges in the order in which
they were added. A call looks at the list or changes it. The number that is shown as that of the edges
is kept beside them, since `remove_edge` counts two for whatever it removes; it is an `int`.
-/

namespace FastGraph
open Multigraph

/-- The contents of a graph. -/
structure IdealGraph (W : Type) where
  nodes : Int → Option NodeMeta
  edges : List (Arrow Int (Bytes × W))
  shown : Int
  top : Int

namespace DynamicGraph
variable {W : Type}

/-- The calls that are made of a graph. -/
inductive Call (W : Type) where
  | change (op : Op W)
  | neighbors (id : Int)
  | reverseNeighbors (id : Int)
  | nodeMeta (id : Int)
  | hasNode (id : Int)
  | hasEdge (fromId toId : Int)
  | nodeCount
  | edgeCount
  | maxNodeId

/-- What a call returns. -/
inductive Reply (W : Type) where
  | done
  | edges (es : List (Edge W))
  | info (info : Option NodeMeta)
  | flag (b : Bool)
  | number (n : Int)

/-- One call. -/
def call (g : DynamicGraph W) : Call W → DynamicGraph W × Reply W
  | .change op => (g.apply op, .done)
  | .neighbors id => (g, .edges (g.neighbors id))
  | .reverseNeighbors id => (g, .edges (g.reverseNeighbors id))
  | .nodeMeta id => (g, .info (g.nodeMeta id))
  | .hasNode id => (g, .flag (g.hasNode id))
  | .hasEdge fromId toId => (g, .flag (g.hasEdge fromId toId))
  | .nodeCount => (g, .number (toInt32 g.nodeCount))
  | .edgeCount => (g, .number g.edgeCount)
  | .maxNodeId => (g, .number g.maxNodeId)

/-- What a sequence of calls returns. -/
def replies : List (Call W) → DynamicGraph W → List (Reply W)
  | [], _ => []
  | c :: cs, g => (g.call c).2 :: replies cs (g.call c).1

end DynamicGraph

namespace IdealGraph
open DynamicGraph
variable {W : Type}

/-- A graph without nodes. -/
def empty : IdealGraph W := ⟨fun _ => none, [], 0, -1⟩

/-- The edge starts or ends at the node. -/
def touches (id : Int) (a : Arrow Int (Bytes × W)) : Bool := a.source = id || a.target = id

/-- The edge has these ends and this type. -/
def joins (fromId toId : Int) (rel : Bytes) (a : Arrow Int (Bytes × W)) : Bool :=
  a.source = fromId && (a.target = toId && a.label.1 = rel)

/-- An edge as a node lists it. -/
def edge (x : Int × Bytes × W) : Edge W := ⟨x.1, x.2.1, x.2.2⟩

/-- One mutation. -/
def apply (G : IdealGraph W) : Op W → IdealGraph W
  | .addNode id labelPtr props =>
    { G with nodes := Function.update G.nodes id (some ⟨labelPtr, props⟩), top := max G.top id }
  | .removeNode id =>
    { G with
      nodes := Function.update G.nodes id none
      edges := G.edges.filter (!touches id ·)
      shown := toInt32 (G.shown - G.edges.countP (touches id)) }
  | .addEdge fromId toId rel weight =>
    { G with
      edges := G.edges ++ [⟨fromId, toId, (rel, weight)⟩]
      shown := toInt32 (G.shown + 1) }
  | .removeEdge fromId toId rel =>
    { G with
      edges := G.edges.filter (!joins fromId toId rel ·)
      shown := if G.edges.any (joins fromId toId rel) then toInt32 (G.shown - 2) else G.shown }

/-- One call. -/
noncomputable def call (G : IdealGraph W) : Call W → IdealGraph W × Reply W
  | .change op => (G.apply op, .done)
  | .neighbors id => (G, .edges ((leaving G.edges id).map edge))
  | .reverseNeighbors id => (G, .edges ((entering G.edges id).map edge))
  | .nodeMeta id => (G, .info (G.nodes id))
  | .hasNode id => (G, .flag (G.nodes id).isSome)
  | .hasEdge fromId toId =>
    (G, .flag (G.edges.any fun a => a.source = fromId && a.target = toId))
  | .nodeCount => (G, .number (toInt32 {id | G.nodes id ≠ none}.ncard))
  | .edgeCount => (G, .number G.shown)
  | .maxNodeId => (G, .number G.top)

/-- What a sequence of calls returns. -/
noncomputable def replies : List (Call W) → IdealGraph W → List (Reply W)
  | [], _ => []
  | c :: cs, G => (G.call c).2 :: replies cs (G.call c).1

/-! ### History -/

/-- The mutation takes the edge out. -/
def removes (a : Arrow Int (Bytes × W)) : Op W → Bool
  | .removeNode id => touches id a
  | .removeEdge fromId toId rel => joins fromId toId rel a
  | .addNode _ _ _ => false
  | .addEdge _ _ _ _ => false

/-- The edges that were added and that no later mutation takes out, in the order in which they were
added. -/
def survivors : List (Op W) → List (Arrow Int (Bytes × W))
  | [] => []
  | .addEdge fromId toId rel weight :: later =>
    if later.any (removes ⟨fromId, toId, (rel, weight)⟩) then survivors later
    else ⟨fromId, toId, (rel, weight)⟩ :: survivors later
  | _ :: later => survivors later

/-- What the mutation says of the node, if it names it. -/
def tells (id : Int) : Op W → Option (Option NodeMeta)
  | .addNode id' labelPtr props => if id' = id then some (some ⟨labelPtr, props⟩) else none
  | .removeNode id' => if id' = id then some none else none
  | .addEdge _ _ _ _ => none
  | .removeEdge _ _ _ => none

/-- What the last mutation that names the node says of it. -/
def lastTold (ops : List (Op W)) (id : Int) : Option NodeMeta :=
  (ops.reverse.findSome? (tells id)).join

end IdealGraph

end FastGraph
