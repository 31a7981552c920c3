import FastGraph.Graph.Proofs.Dijkstra
import FastGraph.Misc.Levels
import FastGraph.Misc.DepthFirst

/-!
# Paths

The paths of a graph with their nodes and edges. The searches see less of them: how many edges
they have, what the edges weigh together, or only where they lead.
-/

namespace FastGraph
open BfsArrays

variable {W : Type} {g : DynamicGraph W} {rel : Bytes} {source u v : Int} {nodes : List Int}
  {edges : List (Edge W)} {k : Nat}

/-- Edges that the relation filter lets through lead from the source along the nodes. -/
inductive Path (g : DynamicGraph W) (rel : Bytes) (source : Int) :
    Int → List Int → List (Edge W) → Prop where
  | start : Path g rel source source [source] []
  | step {u : Int} {nodes : List Int} {edges : List (Edge W)} {edge : Edge W}
      (path : Path g rel source u nodes edges) (among : edge ∈ g.neighbors u)
      (matching : passes rel edge) :
      Path g rel source edge.toId (nodes ++ [edge.toId]) (edges ++ [edge])

/-- A path leads to `v`. -/
def Reaches (g : DynamicGraph W) (rel : Bytes) (source v : Int) : Prop :=
  ∃ nodes edges, Path g rel source v nodes edges

/-- The shortest paths to `v` have `k` edges. -/
def HopDistance (g : DynamicGraph W) (rel : Bytes) (source v : Int) (k : Nat) : Prop :=
  (∃ nodes edges, Path g rel source v nodes edges ∧ edges.length = k) ∧
    ∀ nodes edges, Path g rel source v nodes edges → k ≤ edges.length

theorem mem_successors :
    v ∈ successors g rel u ↔ ∃ edge ∈ g.neighbors u, passes rel edge ∧ edge.toId = v := by
  simp only [successors, List.mem_map, List.mem_filter, and_assoc]

/-! ### Lengths -/

section
open BreadthFirst

theorem Path.layer (path : Path g rel source v nodes edges) :
    v ∈ layer (successors g rel) source edges.length := by
  induction path with
  | start => exact List.mem_singleton_self source
  | step path among matching ih =>
    rw [List.length_append, List.length_singleton, mem_layer_succ]
    exact ⟨_, ih, mem_successors.mpr ⟨_, among, matching, rfl⟩⟩

theorem mem_layer_iff : v ∈ layer (successors g rel) source k ↔
    ∃ nodes edges, Path g rel source v nodes edges ∧ edges.length = k := by
  constructor
  · intro mem
    induction k generalizing v with
    | zero =>
      rw [show v = source from List.mem_singleton.mp mem]
      exact ⟨_, _, .start, rfl⟩
    | succ k ih =>
      obtain ⟨u, before, next⟩ := mem_layer_succ.mp mem
      obtain ⟨edge, among, matching, rfl⟩ := mem_successors.mp next
      obtain ⟨nodes, edges, path, rfl⟩ := ih before
      exact ⟨_, _, path.step among matching, List.length_append⟩
  · rintro ⟨nodes, edges, path, rfl⟩
    exact path.layer

theorem hopDistance_iff : HopDistance g rel source v k ↔ Level (successors g rel) source v k := by
  rw [HopDistance, ← mem_layer_iff, Level]
  refine and_congr_right fun _ => ⟨?_, ?_⟩
  · intro least j less mem
    obtain ⟨nodes, edges, path, length⟩ := mem_layer_iff.mp mem
    exact absurd (least nodes edges path) (by omega)
  · intro apart nodes edges path
    by_contra shorter
    exact apart _ (by omega) path.layer

theorem Reaches.exists_level (reaches : Reaches g rel source v) :
    ∃ k, Level (successors g rel) source v k := by
  obtain ⟨nodes, edges, path⟩ := reaches
  exact BreadthFirst.exists_level path.layer

theorem reaches_of_layer (mem : v ∈ layer (successors g rel) source k) : Reaches g rel source v := by
  obtain ⟨nodes, edges, path, -⟩ := mem_layer_iff.mp mem
  exact ⟨nodes, edges, path⟩

end

/-! ### Where they lead -/

theorem reaches_iff : Reaches g rel source v ↔ DepthFirst.Reaches (successors g rel) source v := by
  constructor
  · intro ⟨nodes, edges, path⟩
    induction path with
    | start => exact .refl
    | step path among matching ih => exact ih.tail (mem_successors.mpr ⟨_, among, matching, rfl⟩)
  · intro reaches
    induction reaches with
    | refl => exact ⟨_, _, .start⟩
    | tail before next ih =>
      obtain ⟨nodes, edges, path⟩ := ih
      obtain ⟨edge, among, matching, rfl⟩ := mem_successors.mp next
      exact ⟨_, _, path.step among matching⟩

/-- No edge leaves the source and the ends of all edges. -/
theorem closed_successors (g : DynamicGraph W) (rel : Bytes) (source : Int) :
    ∀ u ∈ Dijkstra.endpoints g source, ∀ x ∈ successors g rel u, x ∈ Dijkstra.endpoints g source := by
  intro u mem x next
  obtain ⟨edge, among, matching, rfl⟩ := mem_successors.mp next
  exact (Dijkstra.closed_endpoints g rel source).arcs u mem (Dijkstra.arc edge)
    (List.mem_map_of_mem (List.mem_filter.mpr ⟨among, matching⟩))

/-! ### Weights -/

section
open ShortestPaths Dijkstra
variable [AddCommGroup W] {c : W}

theorem Path.walk (path : Path g rel source v nodes edges) :
    Walk (arrows g rel) source v (edges.map Edge.weight).sum := by
  induction path with
  | start => exact .nil
  | step path among matching ih =>
    rw [List.map_append, List.map_singleton, List.sum_append, List.sum_singleton]
    exact ih.snoc (List.mem_map_of_mem (f := arc) (List.mem_filter.mpr ⟨among, matching⟩))

theorem walk_iff : Walk (arrows g rel) source v c ↔
    ∃ nodes edges, Path g rel source v nodes edges ∧ (edges.map Edge.weight).sum = c := by
  constructor
  · intro walk
    induction walk with
    | nil => exact ⟨_, _, .start, rfl⟩
    | snoc walk next ih =>
      obtain ⟨nodes, edges, path, rfl⟩ := ih
      obtain ⟨edge, passing, same⟩ := List.mem_map.mp next
      obtain ⟨rfl, rfl⟩ := Prod.mk.inj same
      obtain ⟨among, matching⟩ := List.mem_filter.mp passing
      refine ⟨_, _, path.step among matching, ?_⟩
      rw [List.map_append, List.map_singleton, List.sum_append, List.sum_singleton]
  · rintro ⟨nodes, edges, path, rfl⟩
    exact path.walk

theorem reaches_of_walk (walk : Walk (arrows g rel) source v c) : Reaches g rel source v := by
  obtain ⟨nodes, edges, path, -⟩ := walk_iff.mp walk
  exact ⟨nodes, edges, path⟩

end

end FastGraph
