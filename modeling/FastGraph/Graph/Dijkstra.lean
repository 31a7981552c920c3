import FastGraph.Graph.Bfs
import FastGraph.Misc.PriorityQueue

/-!
# Weighted paths

`dijkstra_path` and `dijkstra_all` (`graph/dijkstra.cpp`). Labels may be lowered and nodes
queued again as often as a smaller cost appears, so the loops take a number of iterations and
give nothing when it runs out. Weights are of any type that can be added and compared.
-/

namespace FastGraph

/-- `struct WeightedPath` (`dijkstra.hpp:8-13`). -/
structure WeightedPath (W : Type) where
  nodes : List Int
  rels : List Bytes
  cost : W
  deriving DecidableEq, Repr

/-- `struct DistanceMap` (`dijkstra.hpp:15-18`). -/
structure DistanceMap (W : Type) where
  dist : UnorderedMap Int W
  parent : UnorderedMap Int Int

namespace Dijkstra
variable {W : Type}

/-- The local variables of a search. -/
structure Labels (W : Type) where
  dist : UnorderedMap Int W
  parent : UnorderedMap Int Int
  pq : List (W × Int)

/-- The local variables of `dijkstra_path`. -/
structure PathLabels (W : Type) extends Labels W where
  viaRel : UnorderedMap Int Bytes

section
variable [Zero W]

/-- What both functions begin with (`dijkstra.cpp:18-20`, `:60-62`). -/
def start (source : Int) : Labels W where
  dist := UnorderedMap.set ∅ source 0
  parent := UnorderedMap.set ∅ source (-1)
  pq := [(0, source)]

end

section
variable [Add W] [LT W] [DecidableLT W]

/-- `dit == dist.end() || nc < dit->second`. -/
def improves (d : Option W) (nc : W) : Bool :=
  match d with
  | none => true
  | some d => decide (nc < d)

/-- `it != dist.end() && cost > it->second`. -/
def outdated (d : Option W) (cost : W) : Bool :=
  match d with
  | none => false
  | some d => decide (d < cost)

/-- An edge that gives its end a smaller cost, or a first one (`dijkstra.cpp:43-50`,
`:69-75`). -/
def relax (cost : W) (node : Int) (l : Labels W) (edge : Edge W) : Option (Labels W) :=
  if improves (l.dist.find edge.toId) (cost + edge.weight) then
    some {
      dist := l.dist.set edge.toId (cost + edge.weight)
      parent := l.parent.set edge.toId node
      pq := (cost + edge.weight, edge.toId) :: l.pq }
  else none

/-- The body of the edge loop of `dijkstra_path` (`dijkstra.cpp:41-51`). -/
def relaxPath (rel : Bytes) (cost : W) (node : Int) (l : PathLabels W) (edge : Edge W) :
    PathLabels W :=
  if rel ≠ [] ∧ edge.relType ≠ rel then l
  else
    match relax cost node l.toLabels edge with
    | none => l
    | some l' => { l' with viaRel := l.viaRel.set edge.toId edge.relType }

/-- The body of the edge loop of `dijkstra_all` (`dijkstra.cpp:68-76`). -/
def relaxAll (cost : W) (node : Int) (l : Labels W) (edge : Edge W) : Labels W :=
  (relax cost node l edge).getD l

end

/-- The loop that walks the parent map back (`dijkstra.cpp:28-32`): `operator[]` of a missing
key gives 0 and an empty string. -/
def walkBack (parent : UnorderedMap Int Int) (viaRel : UnorderedMap Int Bytes) :
    Nat → Int → Option (List Int × List Bytes)
  | 0, _ => none
  | fuel + 1, cur =>
    if cur = -1 then some ([], [])
    else
      let p := (parent.find cur).getD 0
      (walkBack parent viaRel fuel p).map fun rest =>
        (cur :: rest.1, (if p = -1 then [] else [(viaRel.find cur).getD []]) ++ rest.2)

section
variable [Zero W] [Add W] [LT W] [DecidableLT W]

/-- The loop of `dijkstra_path` (`dijkstra.cpp:22-53`). -/
def pathLoop (g : DynamicGraph W) (rel : Bytes) (target : Int) :
    Nat → PathLabels W → Option (WeightedPath W)
  | 0, _ => none
  | fuel + 1, l =>
    match PriorityQueue.pop l.pq with
    | none => some ⟨[], [], 0⟩
    | some ((cost, node), pq) =>
      let l := { l with pq := pq }
      if node = target then
        (walkBack l.parent l.viaRel fuel target).map fun path =>
          ⟨path.1.reverse, path.2.reverse, cost⟩
      else if outdated (l.dist.find node) cost then pathLoop g rel target fuel l
      else pathLoop g rel target fuel ((g.neighbors node).foldl (relaxPath rel cost node) l)

/-- The loop of `dijkstra_all` (`dijkstra.cpp:64-77`); `result.dist[node]` makes a label 0
for a node that has none. -/
def allLoop (g : DynamicGraph W) : Nat → Labels W → Option (DistanceMap W)
  | 0, _ => none
  | fuel + 1, l =>
    match PriorityQueue.pop l.pq with
    | none => some ⟨l.dist, l.parent⟩
    | some ((cost, node), pq) =>
      let dist := if (l.dist.find node).isNone then l.dist.set node 0 else l.dist
      let l := { l with dist := dist, pq := pq }
      if outdated (l.dist.find node) cost then allLoop g fuel l
      else allLoop g fuel ((g.neighbors node).foldl (relaxAll cost node) l)

end

end Dijkstra

section
variable {W : Type} [Zero W] [Add W] [LT W] [DecidableLT W]

/-- `dijkstra_path` (`dijkstra.cpp:11-54`). -/
def dijkstraPath (fuel : Nat) (g : DynamicGraph W) (source target : Int) (rel : Bytes) :
    Option (WeightedPath W) :=
  Dijkstra.pathLoop g rel target fuel { Dijkstra.start source with viaRel := ∅ }

/-- `dijkstra_all` (`dijkstra.cpp:56-79`). -/
def dijkstraAll (fuel : Nat) (g : DynamicGraph W) (source : Int) : Option (DistanceMap W) :=
  Dijkstra.allLoop g fuel (Dijkstra.start source)

end

namespace CsrDijkstra
variable {W : Type} [Add W] [LT W] [DecidableLT W]

/-- The vectors of `dijkstra_path_csr` and its queue; a distance of `INF` is `none`. -/
structure Vectors (W : Type) where
  dist : List (Option W)
  parent : List Int
  visited : List Bool
  pq : List (W × Int)

/-- One iteration of the loop over the range of a node (`dijkstra.cpp:104-110`). No weight is
`INF`, so that every cost is less. -/
def relaxSlot (c : CSRGraph W) (cost : W) (node : Int) (v : Vectors W) (e : Int) :
    Option (Vectors W) := do
  let nb ← vget c.targets e
  let weight ← vget c.weights e
  let d ← vget v.dist nb
  if Dijkstra.improves d (cost + weight) then do
    let dist ← vset v.dist nb (some (cost + weight))
    let parent ← vset v.parent nb node
    some { v with dist := dist, parent := parent, pq := (cost + weight, nb) :: v.pq }
  else some v

/-- The main loop (`dijkstra.cpp:96-112`). -/
def loop (c : CSRGraph W) (dst : Int) : Nat → Vectors W → Option (Vectors W)
  | 0, _ => none
  | fuel + 1, v =>
    match PriorityQueue.pop v.pq with
    | none => some v
    | some ((cost, node), pq) =>
      let v := { v with pq := pq }
      if node = dst then some v
      else do
        let seen ← vget v.visited node
        if seen then loop c dst fuel v
        else do
          let visited ← vset v.visited node true
          let (first, last) ← c.neighborRange node
          let v ← (CSRGraph.slots first last).foldlM (relaxSlot c cost node)
            { v with visited := visited }
          loop c dst fuel v

end CsrDijkstra

/-- `dijkstra_path_csr` (`dijkstra.cpp:81-121`). -/
def dijkstraPathCsr {W : Type} [Zero W] [Add W] [LT W] [DecidableLT W] (fuel : Nat)
    (c : CSRGraph W) (sourceId targetId : Int) : Outcome StdException (WeightedPath W) :=
  let src := c.toIdx sourceId
  let dst := c.toIdx targetId
  if src < 0 ∨ dst < 0 then pure ⟨[], [], 0⟩
  else do
    let dist ← vnew .create c.nodeCount none
    let parent ← vnew .create c.nodeCount (-1)
    let visited ← vnew .create c.nodeCount false
    Outcome.ofOption do
      let dist ← vset dist src (some 0)
      let v ← CsrDijkstra.loop c dst fuel ⟨dist, parent, visited, [(0, src)]⟩
      match ← vget v.dist dst with
      | none => some ⟨[], [], 0⟩
      | some cost => do
        let nodes ← CsrBfs.walkBack c v.parent fuel dst
        some ⟨nodes.reverse, [], cost⟩

end FastGraph
