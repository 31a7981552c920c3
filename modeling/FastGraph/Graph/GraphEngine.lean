import FastGraph.Graph.CsrGraph
import FastGraph.Index.PropertyIndex

/-!
# The graph engine

`GraphEngine` (`graph/graph_engine.cpp`): the graph, its compacted copy, the pool its
labels are interned in, the arena of the path queries and the property index.
-/

namespace FastGraph

/-- `class GraphEngine` (`graph_engine.hpp:13-77`). -/
structure GraphEngine (W D : Type) where
  graph : DynamicGraph W
  compacted : CSRGraph W
  queryArena : Arena
  labelPool : StringPool
  propIndex : PropertyIndex D

namespace GraphEngine
variable {W D : Type}

/-- A default-constructed engine. -/
def empty : GraphEngine W D where
  graph := .empty
  compacted := .empty
  queryArena := .ofCapacity (4 * 1024 * 1024)
  labelPool := .empty
  propIndex := .empty

/-- `GraphEngine::add_node` (`graph_engine.cpp:5-9`). -/
def addNode (e : GraphEngine W D) (id : Int) (label props : Bytes) : GraphEngine W D :=
  let (pool, interned) := e.labelPool.intern label
  { e with labelPool := pool, graph := e.graph.addNode id interned props }

/-- `std::string(ptr)` of a label pointer. -/
def labelString (e : GraphEngine W D) : CharPtr → Except StdException Bytes
  | none => .error .nullString
  | some ptr => .ok (e.labelPool.cString ptr)

section
variable [Inhabited D] [BEq D] [LT D] [DecidableLT D]

/-- `GraphEngine::remove_node` (`graph_engine.cpp:11-17`): the label pointer becomes a
`std::string` before anything is changed. -/
def removeNode (e : GraphEngine W D) (id : Int) : Outcome StdException (GraphEngine W D) :=
  match e.graph.nodeMeta id with
  | none => pure { e with graph := e.graph.removeNode id }
  | some info => do
    let _ ← Outcome.ofExcept (e.labelString info.labelPtr)
    let propIndex ← Outcome.ofOption (e.propIndex.removeNode id)
    pure { e with propIndex := propIndex, graph := e.graph.removeNode id }

/-- `GraphEngine::index_property` (`graph_engine.cpp:65-69`). -/
def indexProperty (e : GraphEngine W D) (label prop : Bytes) (value : D) (nodeId : Int)
    (coins : List Bool) : Option (GraphEngine W D) := do
  let propIndex ← e.propIndex.add label prop value nodeId coins
  some { e with propIndex := propIndex }

end

section
variable [LT D] [DecidableLT D] [LE D] [DecidableLE D]

/-- `GraphEngine::range_query` (`graph_engine.cpp:52-57`). -/
def rangeQuery (e : GraphEngine W D) (label prop : Bytes) (minVal maxVal : D) :
    Outcome StdException (List Int) :=
  e.propIndex.range label prop minVal maxVal

/-- `GraphEngine::exact_query` (`graph_engine.cpp:59-63`). -/
def exactQuery (e : GraphEngine W D) (label prop : Bytes) (value : D) :
    Outcome StdException (List Int) :=
  e.propIndex.exact label prop value

end

/-- `GraphEngine::add_edge` (`graph_engine.cpp:20-23`). -/
def addEdge (e : GraphEngine W D) (fromId toId : Int) (rel : Bytes) (weight : W) :
    GraphEngine W D :=
  { e with graph := e.graph.addEdge fromId toId rel weight }

/-- `GraphEngine::remove_edge` (`graph_engine.cpp:25-27`). -/
def removeEdge (e : GraphEngine W D) (fromId toId : Int) (rel : Bytes) : GraphEngine W D :=
  { e with graph := e.graph.removeEdge fromId toId rel }

/-- `GraphEngine::nodes_by_label` (`graph_engine.cpp:29-38`), which interns the label it is
asked for. -/
def nodesByLabel (e : GraphEngine W D) (order : IterOrder) (label : Bytes) :
    GraphEngine W D × List Int :=
  let (pool, target) := e.labelPool.intern label
  ({ e with labelPool := pool },
    (order.permute e.graph.nodes.toList).filterMap fun n =>
      if n.2.labelPtr = target then some n.1 else none)

/-- `GraphEngine::compact` (`graph_engine.cpp:45-48`). -/
def compact [Zero W] (e : GraphEngine W D) (order : IterOrder) :
    Outcome StdException (GraphEngine W D) := do
  let c ← CSRGraph.buildCsr e.graph e.labelString order
  pure { e with compacted := c, graph := e.graph.clearDirty }

/-- `GraphEngine::csr` (`graph_engine.cpp:40-43`). -/
def csr [Zero W] (e : GraphEngine W D) (order : IterOrder) :
    Outcome StdException (GraphEngine W D × CSRGraph W) :=
  if e.graph.dirty then do
    let e ← e.compact order
    pure (e, e.compacted)
  else pure (e, e.compacted)

/-- `GraphEngine::reset_query_arena`. -/
def resetQueryArena (e : GraphEngine W D) : GraphEngine W D :=
  { e with queryArena := e.queryArena.reset }

/-- `GraphEngine::all_nodes` (`graph_engine.cpp:71-77`). -/
def allNodes (e : GraphEngine W D) (order : IterOrder) :
    Except StdException (List (Int × Bytes × Bytes)) :=
  (order.permute e.graph.nodes.toList).mapM fun n => do
    let label ← e.labelString n.2.labelPtr
    pure (n.1, label, n.2.props)

/-- `GraphEngine::all_edges` (`graph_engine.cpp:79-86`). -/
def allEdges (e : GraphEngine W D) (order : IterOrder) : List (Int × Edge W) :=
  (order.permute e.graph.adj.toList).flatMap fun r => r.2.map fun edge => (r.1, edge)

/-! ### Runs -/

/-- The calls that change the engine. -/
inductive Op (W D : Type) where
  | addNode (id : Int) (label props : Bytes)
  | removeNode (id : Int)
  | addEdge (fromId toId : Int) (rel : Bytes) (weight : W)
  | removeEdge (fromId toId : Int) (rel : Bytes)
  | nodesByLabel (label : Bytes)
  | resetQueryArena
  | indexProperty (label prop : Bytes) (value : D) (nodeId : Int) (coins : List Bool)

section
variable [Inhabited D] [BEq D] [LT D] [DecidableLT D]

/-- One call. -/
def apply (e : GraphEngine W D) : Op W D → Outcome StdException (GraphEngine W D)
  | .addNode id label props => pure (e.addNode id label props)
  | .removeNode id => e.removeNode id
  | .addEdge fromId toId rel weight => pure (e.addEdge fromId toId rel weight)
  | .removeEdge fromId toId rel => pure (e.removeEdge fromId toId rel)
  | .nodesByLabel label => pure (e.nodesByLabel .asListed label).1
  | .resetQueryArena => pure e.resetQueryArena
  | .indexProperty label prop value nodeId coins =>
    Outcome.ofOption (e.indexProperty label prop value nodeId coins)

/-- The engine after a call. A call that throws leaves it as it is. -/
def attempt (e : GraphEngine W D) (op : Op W D) : Option (GraphEngine W D) :=
  match e.apply op with
  | none => none
  | some (.error _) => some e
  | some (.ok e') => some e'

/-- The engine after a sequence of calls, of which some may throw. -/
def attempts (ops : List (Op W D)) (e : GraphEngine W D) : Option (GraphEngine W D) :=
  ops.foldlM attempt e

/-- The engines that sequences of calls lead to from a default-constructed one. A call that
throws leaves the engine as it is. -/
inductive Reachable : GraphEngine W D → Prop where
  | empty : Reachable empty
  | step {e e' : GraphEngine W D} (op : Op W D) (reached : Reachable e)
      (stepped : e.apply op = Outcome.returned e') : Reachable e'

end

end GraphEngine

end FastGraph
