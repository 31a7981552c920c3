import FastGraph.Graph.DynamicGraph

/-!
# Depth-first search

`dfs_component`, `dfs_has_cycle` and `dfs_topo_sort` (`graph/dfs.cpp`). The first keeps a stack, on
which a node can be more than once. The others call themselves: in the second white nodes have the
color 0, gray ones 1 and black ones 2. The loop takes a number of iterations and the recursions a
depth, and they give nothing when these run out.
-/

namespace FastGraph

namespace DfsComponent
variable {W : Type}

/-- The local variables of `dfs_component`, the stack from its top. -/
structure Marks where
  component : List Int
  visited : UnorderedMap Int Bool
  stack : List Int

/-- `visited[id]`, which a missing id enters with `false`. -/
def Marks.seen (m : Marks) (id : Int) : Bool := (m.visited.find id).getD false

/-- The body of the loop over the edges of a node (`dfs.cpp:18-19`). -/
def pushEdge (m : Marks) (edge : Edge W) : Marks :=
  if m.seen edge.toId then m else { m with stack := edge.toId :: m.stack }

/-- The loop over the stack (`dfs.cpp:13-20`). -/
def loop (g : DynamicGraph W) : Nat → Marks → Option (List Int)
  | 0, _ => none
  | fuel + 1, m =>
    match m.stack with
    | [] => some m.component
    | node :: stack =>
      let m := { m with stack := stack }
      if m.seen node then loop g fuel m
      else loop g fuel ((g.neighbors node).foldl pushEdge
        { m with visited := m.visited.set node true, component := m.component ++ [node] })

end DfsComponent

/-- `dfs_component` (`dfs.cpp:7-22`). -/
def dfsComponent {W : Type} (fuel : Nat) (g : DynamicGraph W) (source : Int) : Option (List Int) :=
  DfsComponent.loop g fuel ⟨[], ∅, [source]⟩

namespace HasCycle
variable {W : Type}

/-- `color[id]`: an id that has none gets the color 0. -/
def colorOf (color : UnorderedMap Int Int) (id : Int) : Int := (color.find id).getD 0

/-- The loop over the edges of a node (`dfs.cpp:30-33`), `visit` being the recursive call. -/
def visitEdges (visit : UnorderedMap Int Int → Int → Option (Bool × UnorderedMap Int Int)) :
    List (Edge W) → UnorderedMap Int Int → Option (Bool × UnorderedMap Int Int)
  | [], color => some (false, color)
  | e :: edges, color =>
    if colorOf color e.toId = 1 then some (true, color)
    else if colorOf color e.toId = 0 then do
      let (found, color) ← visit color e.toId
      if found then some (true, color) else visitEdges visit edges color
    else visitEdges visit edges color

/-- The lambda `visit` (`dfs.cpp:28-36`). -/
def visit (g : DynamicGraph W) :
    Nat → UnorderedMap Int Int → Int → Option (Bool × UnorderedMap Int Int)
  | 0, _, _ => none
  | fuel + 1, color, node => do
    let (found, color) ← visitEdges (visit g fuel) (g.neighbors node) (color.set node 1)
    if found then some (true, color) else some (false, color.set node 2)

/-- The loop over the nodes (`dfs.cpp:38-42`). -/
def visitAll (g : DynamicGraph W) (fuel : Nat) :
    List Int → UnorderedMap Int Int → Option Bool
  | [], _ => some false
  | id :: ids, color =>
    if colorOf color id = 0 then do
      let (found, color) ← visit g fuel color id
      if found then some true else visitAll g fuel ids color
    else visitAll g fuel ids color

end HasCycle

/-- `dfs_has_cycle` (`dfs.cpp:24-44`), which does not look at the number of nodes. -/
def dfsHasCycle {W : Type} (fuel : Nat) (g : DynamicGraph W) (order : IterOrder) : Option Bool :=
  HasCycle.visitAll g fuel ((order.permute g.nodes.toList).map Prod.fst) ∅

namespace TopoSort
variable {W : Type}

/-- The local variables of `dfs_topo_sort`. -/
structure Marks where
  visited : UnorderedMap Int Bool
  result : List Int

/-- `visited[id]`, which a missing id enters with `false`. -/
def Marks.seen (m : Marks) (id : Int) : Bool := (m.visited.find id).getD false

/-- The loops over the edges of a node (`dfs.cpp:52-53`) and over the ids (`dfs.cpp:57-58`), which
call `visit` for what was not visited. -/
def visitEach (visit : Marks → Int → Option Marks) : List Int → Marks → Option Marks
  | [], m => some m
  | id :: ids, m =>
    if m.seen id then visitEach visit ids m
    else do
      let m ← visit m id
      visitEach visit ids m

/-- The lambda `visit` (`dfs.cpp:50-55`). -/
def visit (g : DynamicGraph W) : Nat → Marks → Int → Option Marks
  | 0, _, _ => none
  | fuel + 1, m, node => do
    let m ← visitEach (visit g fuel) ((g.neighbors node).map Edge.toId)
      { m with visited := m.visited.set node true }
    some { m with result := m.result ++ [node] }

end TopoSort

/-- `dfs_topo_sort` (`dfs.cpp:45-62`). -/
def dfsTopoSort {W : Type} (fuel : Nat) (g : DynamicGraph W) (nodeIds : List Int) :
    Option (List Int) :=
  (TopoSort.visitEach (TopoSort.visit g fuel) nodeIds ⟨∅, []⟩).map fun m => m.result.reverse

end FastGraph
