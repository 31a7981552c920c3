import FastGraph.Graph.GraphEngine

/-!
# Breadth-first search in arrays

`bfs_path` (`graph/bfs.cpp`) with the arena that `GRAPH.PATH` gives it. Its four arrays have
an element for every id up to the largest; an index outside an array ends the call and is
reported. An array that found no room in the arena is a null pointer and has no elements.
`bfs_neighborhood` and `bfs_component` keep hash maps instead, and `bfs_path_csr` searches the
compacted graph in vectors of indices.
-/

namespace FastGraph

/-- `struct PathResult` (`bfs.hpp:9-13`). -/
structure PathResult where
  nodes : List Int
  rels : List Bytes
  deriving DecidableEq, Repr

/-- `PathResult::empty`. -/
def PathResult.empty (p : PathResult) : Bool := p.nodes.isEmpty

/-- `Arena::alloc_array<T>(n)` (`arena.hpp:38-41`) for a type of `size` bytes, and what is
known of the elements. -/
def Arena.allocArray {α : Type} (a : Arena) (size align : Nat) (n : Int) (init : α) :
    Arena × List α :=
  match a.alloc (toSizeT (size * toSizeT n)) align with
  | (a, some _) => (a, List.replicate n.toNat init)
  | (a, none) => (a, [])

/-- The arrays of `bfs_path` and the ends of its queue; an element that was not written is
`none`. -/
structure BfsArrays where
  parent : List (Option Int)
  viaRel : List (Option Bytes)
  visited : List Bool
  queue : List (Option Int)
  head : Int
  tail : Int
  deriving DecidableEq, Repr

namespace BfsArrays
variable {W : Type}

/-- The allocations of `bfs_path` (`bfs.cpp:12-35`). -/
def alloc (arena : Arena) (n : Int) : Arena × BfsArrays :=
  let (arena, parent) := arena.allocArray 4 4 n none
  let (arena, viaRel) := arena.allocArray 8 8 n none
  let (arena, visited) := arena.allocArray 1 1 n false
  let (arena, queue) := arena.allocArray 4 4 n none
  (arena, ⟨parent, viaRel, visited, queue, 0, 0⟩)

/-- The blocks that the four calls of `alloc_array` in `bfs_path` return (`bfs.cpp:12-35`);
`none` is a null pointer. -/
def blocks (arena : Arena) (n : Int) : List (Option Nat) :=
  let (arena, parent) := arena.alloc (toSizeT (4 * toSizeT n)) 4
  let (arena, viaRel) := arena.alloc (toSizeT (8 * toSizeT n)) 8
  let (arena, visited) := arena.alloc (toSizeT (1 * toSizeT n)) 1
  let (_, queue) := arena.alloc (toSizeT (4 * toSizeT n)) 4
  [parent, viaRel, visited, queue]

/-- `my_queue[tail++] = id`. -/
def enqueue (a : BfsArrays) (id : Int) : Outcome OutOfBounds BfsArrays := do
  let queue ← aset a.queue a.tail (some id)
  pure { a with queue := queue, tail := a.tail + 1 }

/-- The source enters the queue (`bfs.cpp:37-39`). -/
def start (a : BfsArrays) (source : Int) : Outcome OutOfBounds BfsArrays := do
  let a ← a.enqueue source
  let visited ← aset a.visited source true
  let parent ← aset a.parent source (some (-1))
  pure { a with visited := visited, parent := parent }

/-- One iteration of the loop over the edges of a node (`bfs.cpp:46-64`), and whether it
found the target. -/
def visitEdge (rel : Bytes) (target node : Int) (a : BfsArrays) (edge : Edge W) :
    Outcome OutOfBounds (BfsArrays × Bool) :=
  if rel ≠ [] ∧ edge.relType ≠ rel then pure (a, false)
  else do
    let seen ← aget a.visited edge.toId
    if seen then pure (a, false)
    else do
      let visited ← aset a.visited edge.toId true
      let parent ← aset a.parent edge.toId (some node)
      let viaRel ← aset a.viaRel edge.toId (some edge.relType)
      let a := { a with visited := visited, parent := parent, viaRel := viaRel }
      if edge.toId = target then pure (a, true)
      else do
        let a ← a.enqueue edge.toId
        pure (a, false)

/-- The loop over the edges of a node. -/
def visitEdges (rel : Bytes) (target node : Int) :
    BfsArrays → List (Edge W) → Outcome OutOfBounds (BfsArrays × Bool)
  | a, [] => pure (a, false)
  | a, edge :: edges => do
    let (a, found) ← visitEdge rel target node a edge
    if found then pure (a, true) else visitEdges rel target node a edges

/-- The walk back from the target (`bfs.cpp:54-60`), the path still being reversed. -/
def walkBack (a : BfsArrays) : Nat → Int → Outcome OutOfBounds PathResult
  | 0, _ => Outcome.stuck
  | fuel + 1, cur =>
    if cur = -1 then pure ⟨[], []⟩
    else do
      let parent ← aget a.parent cur
      let parent ← Outcome.ofOption parent
      let rels ←
        if parent = -1 then pure []
        else do
          let via ← aget a.viaRel cur
          let via ← Outcome.ofOption via
          pure [via]
      let rest ← walkBack a fuel parent
      pure ⟨cur :: rest.nodes, rels ++ rest.rels⟩

/-- The main loop (`bfs.cpp:43-66`). -/
def search (g : DynamicGraph W) (rel : Bytes) (target : Int) :
    Nat → BfsArrays → Outcome OutOfBounds PathResult
  | 0, _ => Outcome.stuck
  | fuel + 1, a =>
    if a.head < a.tail then do
      let node ← aget a.queue a.head
      let node ← Outcome.ofOption node
      let (a, found) ← visitEdges rel target node { a with head := a.head + 1 } (g.neighbors node)
      if found then do
        let path ← walkBack a fuel target
        pure ⟨path.nodes.reverse, path.rels.reverse⟩
      else search g rel target fuel a
    else pure ⟨[], []⟩

end BfsArrays

/-- The arrays that `bfs_path` takes from the heap where it has no arena. -/
def BfsArrays.onHeap (n : Int) : BfsArrays where
  parent := List.replicate n.toNat none
  viaRel := List.replicate n.toNat none
  visited := List.replicate n.toNat false
  queue := List.replicate n.toNat none
  head := 0
  tail := 0

/-- `bfs_path` (`bfs.cpp:6-76`) without an arena. -/
def bfsPathOnHeap {W : Type} (fuel : Nat) (g : DynamicGraph W) (source target : Int)
    (rel : Bytes) : Outcome OutOfBounds PathResult :=
  if source = target then pure ⟨[source], []⟩
  else do
    let n ← Outcome.ofOption (intAdd g.maxNodeId 1)
    let a ← (BfsArrays.onHeap n).start source
    a.search g rel target fuel

/-- `bfs_path` (`bfs.cpp:6-76`) with an arena. -/
def bfsPath {W : Type} (fuel : Nat) (g : DynamicGraph W) (source target : Int) (rel : Bytes)
    (arena : Arena) : Outcome OutOfBounds (Arena × PathResult) :=
  if source = target then pure (arena, ⟨[source], []⟩)
  else do
    let n ← Outcome.ofOption (intAdd g.maxNodeId 1)
    let (arena, a) := BfsArrays.alloc arena n
    let a ← a.start source
    let path ← a.search g rel target fuel
    pure (arena, path)

/-- `bfs_path` with an arena or without one. -/
def bfsPathIn {W : Type} (fuel : Nat) (g : DynamicGraph W) (source target : Int) (rel : Bytes) :
    Option Arena → Outcome OutOfBounds PathResult
  | none => bfsPathOnHeap fuel g source target rel
  | some arena => do
    let (_, path) ← bfsPath fuel g source target rel arena
    pure path

/-- `struct HopResult` (`bfs.hpp:15-20`). -/
structure HopResult where
  node : Int
  hop : Int
  via : Int
  relType : Bytes
  deriving DecidableEq, Repr

namespace Neighborhood
variable {W : Type}

/-- The local variables of `bfs_neighborhood`. -/
structure Hops where
  result : List HopResult
  visited : UnorderedMap Int Int
  queue : List (Int × Int)

/-- The body of the loop over the edges of a node (`bfs.cpp:92-97`). -/
def hopEdge (rel : Bytes) (node hop : Int) (h : Hops) (edge : Edge W) : Hops :=
  if rel ≠ [] ∧ edge.relType ≠ rel then h
  else if (h.visited.find edge.toId).isSome then h
  else
    { result := h.result ++ [⟨edge.toId, hop + 1, node, edge.relType⟩]
      visited := h.visited.set edge.toId (hop + 1)
      queue := h.queue ++ [(edge.toId, hop + 1)] }

/-- The loop over the queue (`bfs.cpp:88-98`). -/
def loop (g : DynamicGraph W) (maxHops : Int) (rel : Bytes) : Nat → Hops → Option (List HopResult)
  | 0, _ => none
  | fuel + 1, h =>
    match h.queue with
    | [] => some h.result
    | (node, hop) :: queue =>
      let h := { h with queue := queue }
      if maxHops ≤ hop then loop g maxHops rel fuel h
      else loop g maxHops rel fuel ((g.neighbors node).foldl (hopEdge rel node hop) h)

end Neighborhood

/-- `bfs_neighborhood` (`bfs.cpp:78-101`). -/
def bfsNeighborhood {W : Type} (fuel : Nat) (g : DynamicGraph W) (source maxHops : Int)
    (rel : Bytes) : Option (List HopResult) :=
  Neighborhood.loop g maxHops rel fuel
    { result := []
      visited := UnorderedMap.set ∅ source 0
      queue := [(source, 0)] }

namespace Component
variable {W : Type}

/-- The local variables of `bfs_component`. -/
structure Marks where
  component : List Int
  visited : UnorderedMap Int Bool
  queue : List Int

/-- `visited[id]`, which a missing id enters with `false`. -/
def Marks.seen (m : Marks) (id : Int) : Bool := (m.visited.find id).getD false

/-- The body of the loop over the edges of a node (`bfs.cpp:114-117`). -/
def markEdge (m : Marks) (edge : Edge W) : Marks :=
  if m.seen edge.toId then m
  else { m with visited := m.visited.set edge.toId true, queue := m.queue ++ [edge.toId] }

/-- The loop over the queue (`bfs.cpp:110-119`). -/
def loop (g : DynamicGraph W) : Nat → Marks → Option (List Int)
  | 0, _ => none
  | fuel + 1, m =>
    match m.queue with
    | [] => some m.component
    | node :: queue =>
      loop g fuel ((g.neighbors node).foldl markEdge
        { m with component := m.component ++ [node], queue := queue })

end Component

/-- `bfs_component` (`bfs.cpp:103-121`). -/
def bfsComponent {W : Type} (fuel : Nat) (g : DynamicGraph W) (source : Int) : Option (List Int) :=
  Component.loop g fuel
    { component := []
      visited := UnorderedMap.set ∅ source true
      queue := [source] }

namespace CsrBfs
variable {W : Type}

/-- The vectors of `bfs_path_csr` and the ends of its queue. -/
structure Vectors where
  parent : List Int
  visited : List Bool
  queue : List Int
  head : Int
  tail : Int
  deriving DecidableEq, Repr

/-- `queue[tail++] = idx`. -/
def enqueue (v : Vectors) (idx : Int) : Option Vectors := do
  let queue ← vset v.queue v.tail idx
  some { v with queue := queue, tail := v.tail + 1 }

/-- The source enters the queue (`bfs.cpp:136-137`). -/
def start (v : Vectors) (src : Int) : Option Vectors := do
  let v ← enqueue v src
  let visited ← vset v.visited src true
  some { v with visited := visited }

/-- One iteration of the loop over the range of a node (`bfs.cpp:143-154`), and whether it
found the target. -/
def visitSlot (c : CSRGraph W) (dst node : Int) (v : Vectors) (e : Int) :
    Option (Vectors × Bool) := do
  let nb ← vget c.targets e
  let seen ← vget v.visited nb
  if seen then some (v, false)
  else do
    let visited ← vset v.visited nb true
    let parent ← vset v.parent nb node
    let v := { v with visited := visited, parent := parent }
    if nb = dst then some (v, true)
    else do
      let v ← enqueue v nb
      some (v, false)

/-- The loop over the range of a node. -/
def visitSlots (c : CSRGraph W) (dst node : Int) : Vectors → List Int → Option (Vectors × Bool)
  | v, [] => some (v, false)
  | v, e :: es => do
    let (v, found) ← visitSlot c dst node v e
    if found then some (v, true) else visitSlots c dst node v es

/-- The walk back from the target (`bfs.cpp:149-150`), the path still being reversed. -/
def walkBack (c : CSRGraph W) (parent : List Int) : Nat → Int → Option (List Int)
  | 0, _ => none
  | fuel + 1, cur =>
    if cur = -1 then some []
    else do
      let id ← vget c.idxToId cur
      let next ← vget parent cur
      let rest ← walkBack c parent fuel next
      some (id :: rest)

/-- The main loop (`bfs.cpp:139-156`). -/
def search (c : CSRGraph W) (dst : Int) : Nat → Vectors → Option PathResult
  | 0, _ => none
  | fuel + 1, v =>
    if v.head < v.tail then do
      let node ← vget v.queue v.head
      let (first, last) ← c.neighborRange node
      let (v, found) ← visitSlots c dst node { v with head := v.head + 1 } (CSRGraph.slots first last)
      if found then do
        let nodes ← walkBack c v.parent fuel dst
        some ⟨nodes.reverse, []⟩
      else search c dst fuel v
    else some ⟨[], []⟩

end CsrBfs

/-- `bfs_path_csr` (`bfs.cpp:124-157`). -/
def bfsPathCsr {W : Type} (fuel : Nat) (c : CSRGraph W) (sourceId targetId : Int) :
    Outcome StdException PathResult :=
  let src := c.toIdx sourceId
  let dst := c.toIdx targetId
  if src < 0 ∨ dst < 0 then pure ⟨[], []⟩
  else if src = dst then pure ⟨[sourceId], []⟩
  else do
    let parent ← vnew .create c.nodeCount (-1)
    let visited ← vnew .create c.nodeCount false
    let queue ← vnew .create c.nodeCount 0
    Outcome.ofOption do
      let v ← CsrBfs.start ⟨parent, visited, queue, 0, 0⟩ src
      CsrBfs.search c dst fuel v

/-! ### Runs with queries -/

namespace GraphEngine
open BfsArrays
variable {W D : Type}

/-- What clients ask of the engine: the calls that change it, a compaction, or a path, whose
search takes its arrays from the arena. -/
inductive Request (W D : Type) where
  | call (op : Op W D)
  | csr (order : IterOrder)
  | path (source target : Int) (rel : Bytes)

/-- The blocks that `GRAPH.PATH` takes from the arena it has just reset. -/
def pathBlocks (e : GraphEngine W D) (source target : Int) : Option (List (Option Nat)) :=
  if source = target then some []
  else do
    let n ← intAdd e.graph.maxNodeId 1
    some (blocks e.queryArena.reset n)

section
variable [Zero W] [Inhabited D] [BEq D] [LT D] [DecidableLT D]

/-- The engine after a request. A search of which an access leaves its array leaves nothing. -/
def serve (fuel : Nat) (e : GraphEngine W D) : Request W D → Option (GraphEngine W D)
  | .call op => e.attempt op
  | .csr order =>
    match e.csr order with
    | none => none
    | some (.error _) => some e
    | some (.ok (e', _)) => some e'
  | .path source target rel =>
    match bfsPath fuel e.graph source target rel e.queryArena.reset with
    | some (.ok (arena, _)) => some { e with queryArena := arena }
    | _ => none

/-- The engine after a sequence of requests. -/
def served (fuel : Nat) (requests : List (Request W D)) (e : GraphEngine W D) :
    Option (GraphEngine W D) := requests.foldlM (serve fuel) e

end

end GraphEngine

end FastGraph
