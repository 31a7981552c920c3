import FastGraph.Graph.DynamicGraph
import FastGraph.Misc.Vector

/-!
# The compacted graph

`CSRGraph` and `build_csr` (`graph/csr_graph.cpp`): a copy of the nodes and the edges of a
`DynamicGraph` in arrays, the edges of a node in consecutive slots. Every subscript and
every sum is checked as the vectors are filled.
-/

namespace FastGraph
open Adjacency

/-- `struct CSRGraph` (`csr_graph.hpp:6-39`). -/
structure CSRGraph (W : Type) where
  nodeCount : Int
  edgeCount : Int
  idToIdx : List Int
  idxToId : List Int
  offsets : List Int
  targets : List Int
  weights : List W
  labels : List Bytes
  props : List Bytes
  relTypes : List Bytes
  deriving DecidableEq, Repr

namespace CSRGraph
variable {W : Type}

/-- A default-constructed `CSRGraph`. -/
def empty : CSRGraph W := ⟨0, 0, [], [], [], [], [], [], [], []⟩

/-- `CSRGraph::neighbor_range` (`csr_graph.hpp:26-28`). -/
def neighborRange (c : CSRGraph W) (idx : Int) : Option (Int × Int) := do
  let first ← vget c.offsets idx
  let last ← vget c.offsets (idx + 1)
  some (first, last)

/-- The values of `e` in the loops over a range, `for (int e = begin; e < end; e++)`. -/
def slots (first last : Int) : List Int :=
  (List.range (last - first).toNat).map fun (k : Nat) => first + (k : Int)

/-- `CSRGraph::to_idx` (`csr_graph.hpp:35-38`), whose subscript is in range where it is
read. -/
def toIdx (c : CSRGraph W) (id : Int) : Int :=
  if id < 0 ∨ toInt32 c.idToIdx.length ≤ id then -1 else (vget c.idToIdx id).getD (-1)

/-- The loop that numbers the nodes (`csr_graph.cpp:20-23`). -/
def numberNodes (ids : List Int) (maps : List Int × List Int) (i : Nat) :
    Option (List Int × List Int) := do
  let id ← vget ids i
  let idToIdx ← vset maps.1 id i
  let idxToId ← vset maps.2 i id
  some (idToIdx, idxToId)

/-- One iteration of the loop that counts degrees (`csr_graph.cpp:27-30`). -/
def countDegree (c : CSRGraph W) (degree : List Int) (row : Int × List (Edge W)) :
    Option (List Int) :=
  if 0 ≤ c.toIdx row.1 then vset degree (c.toIdx row.1) (toInt32 row.2.length) else some degree

/-- One iteration of the prefix sum (`csr_graph.cpp:35-36`). -/
def addOffset (degree offsets : List Int) (i : Nat) : Option (List Int) := do
  let offset ← vget offsets i
  let size ← vget degree i
  let sum ← intAdd offset size
  vset offsets (i + 1) sum

/-- What the filling loop writes: the cursors and the three arrays of the edges. -/
structure EdgeArrays (W : Type) where
  cursor : List Int
  targets : List Int
  weights : List W
  relTypes : List Bytes

/-- One iteration of the inner filling loop (`csr_graph.cpp:48-55`). -/
def fillEdge (c : CSRGraph W) (fromIdx : Int) (a : EdgeArrays W) (e : Edge W) :
    Option (EdgeArrays W) :=
  if c.toIdx e.toId < 0 then some a
  else do
    let pos ← vget a.cursor fromIdx
    let next ← intAdd pos 1
    let cursor ← vset a.cursor fromIdx next
    let targets ← vset a.targets pos (c.toIdx e.toId)
    let weights ← vset a.weights pos e.weight
    let relTypes ← vset a.relTypes pos e.relType
    some ⟨cursor, targets, weights, relTypes⟩

/-- One iteration of the outer filling loop (`csr_graph.cpp:45-56`). -/
def fillRow (c : CSRGraph W) (a : EdgeArrays W) (row : Int × List (Edge W)) :
    Option (EdgeArrays W) :=
  if c.toIdx row.1 < 0 then some a else row.2.foldlM (fillEdge c (c.toIdx row.1)) a

/-- One iteration of the loop over the metadata (`csr_graph.cpp:61-66`). -/
def fillNode (c : CSRGraph W) (labelString : CharPtr → Except StdException Bytes)
    (texts : List Bytes × List Bytes) (node : Int × NodeMeta) :
    Outcome StdException (List Bytes × List Bytes) :=
  if c.toIdx node.1 < 0 then pure texts
  else do
    let label ← Outcome.ofExcept (labelString node.2.labelPtr)
    let labels ← Outcome.ofOption (vset texts.1 (c.toIdx node.1) label)
    let props ← Outcome.ofOption (vset texts.2 (c.toIdx node.1) node.2.props)
    pure (labels, props)

/-- The first part of `build_csr`: the nodes (`csr_graph.cpp:9-23`). -/
def buildNodes (g : DynamicGraph W) (order : IterOrder) : Outcome StdException (CSRGraph W) := do
  let ids := ((order.permute g.nodes.toList).map Prod.fst).mergeSort
  let nodeCount := toInt32 ids.length
  let bound ← Outcome.ofOption (intAdd (ids.getLast?.getD 0) 1)
  let idToIdx ← vnew .create bound (-1)
  let idxToId ← vnew .resize nodeCount 0
  let (idToIdx, idxToId) ← Outcome.ofOption
    ((List.range nodeCount.toNat).foldlM (numberNodes ids) (idToIdx, idxToId))
  pure { empty with nodeCount := nodeCount, idToIdx := idToIdx, idxToId := idxToId }

/-- The second part: the offsets (`csr_graph.cpp:26-38`). -/
def buildOffsets (c : CSRGraph W) (rows : List (Int × List (Edge W))) :
    Outcome StdException (CSRGraph W) := do
  let degree ← vnew .create c.nodeCount 0
  let degree ← Outcome.ofOption (rows.foldlM (countDegree c) degree)
  let size ← Outcome.ofOption (intAdd c.nodeCount 1)
  let offsets ← vnew .resize size 0
  let offsets ← Outcome.ofOption (vset offsets 0 0)
  let offsets ← Outcome.ofOption
    ((List.range c.nodeCount.toNat).foldlM (addOffset degree) offsets)
  let edgeCount ← Outcome.ofOption (vget offsets c.nodeCount)
  pure { c with offsets := offsets, edgeCount := edgeCount }

/-- The third part: the edges (`csr_graph.cpp:39-56`). -/
def buildEdges [Zero W] (c : CSRGraph W) (rows : List (Int × List (Edge W))) :
    Outcome StdException (CSRGraph W) := do
  let targets ← vnew .resize c.edgeCount 0
  let weights ← vnew .resize c.edgeCount 0
  let relTypes ← vnew .resize c.edgeCount []
  let a ← Outcome.ofOption (rows.foldlM (fillRow c) ⟨c.offsets, targets, weights, relTypes⟩)
  pure { c with targets := a.targets, weights := a.weights, relTypes := a.relTypes }

/-- The fourth part: the metadata (`csr_graph.cpp:59-66`). -/
def buildTexts (c : CSRGraph W) (labelString : CharPtr → Except StdException Bytes)
    (nodes : List (Int × NodeMeta)) : Outcome StdException (CSRGraph W) := do
  let labels ← vnew .resize c.nodeCount []
  let props ← vnew .resize c.nodeCount []
  let (labels, props) ← nodes.foldlM (fillNode c labelString) (labels, props)
  pure { c with labels := labels, props := props }

/-- `build_csr` (`csr_graph.cpp:6-69`). Its loops over one map meet the elements in one
order. -/
def buildCsr [Zero W] (g : DynamicGraph W) (labelString : CharPtr → Except StdException Bytes)
    (order : IterOrder) : Outcome StdException (CSRGraph W) := do
  let c ← buildNodes g order
  let c ← buildOffsets c (order.permute g.adj.toList)
  let c ← buildEdges c (order.permute g.adj.toList)
  buildTexts c labelString (order.permute g.nodes.toList)

end CSRGraph

end FastGraph
