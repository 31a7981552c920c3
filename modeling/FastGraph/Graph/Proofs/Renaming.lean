import FastGraph.Graph.Proofs.RemoveNode

/-!
# Renaming the ids of a graph

Two graphs that differ in the names of their ids, and mutations of the two that differ so. The
lists of the one are those of the other with the ends of the edges renamed.
-/

namespace FastGraph
open Adjacency

/-! ### Renamed graphs -/

section
variable {W : Type} {g g' : DynamicGraph W} {f : Int → Int} {u v : Int}

/-- The ids of a graph: those of its nodes and of the ends of its edges. -/
def IsId (g : DynamicGraph W) (v : Int) : Prop :=
  g.hasNode v ∨ g.neighbors v ≠ [] ∨ ∃ u, ∃ e ∈ g.neighbors u, e.toId = v

theorem IsId.of_edge {e : Edge W} (among : e ∈ g.neighbors u) : IsId g u ∧ IsId g e.toId :=
  ⟨Or.inr (Or.inl (List.ne_nil_of_mem among)), Or.inr (Or.inr ⟨u, e, among, rfl⟩)⟩

/-- An edge with its end renamed. -/
def renameEdge (f : Int → Int) (e : Edge W) : Edge W := { e with toId := f e.toId }

/-- `g'` has the edges of `g`, with the ids renamed by `f`, and no others. No two ids get one
name. -/
structure Renamed (f : Int → Int) (g g' : DynamicGraph W) : Prop where
  injective : ∀ u v, IsId g u → IsId g v → f u = f v → u = v
  edges : ∀ v, IsId g v → g'.neighbors (f v) = (g.neighbors v).map (renameEdge f)
  only : ∀ v', g'.neighbors v' ≠ [] → ∃ v, IsId g v ∧ f v = v'

/-- An edge of the renamed graph is one of the graph. -/
theorem Renamed.edge (renamed : Renamed f g g') {v' : Int} {e' : Edge W}
    (among : e' ∈ g'.neighbors v') :
    ∃ v e, IsId g v ∧ f v = v' ∧ e ∈ g.neighbors v ∧ renameEdge f e = e' := by
  obtain ⟨v, isId, rfl⟩ := renamed.only v' (List.ne_nil_of_mem among)
  rw [renamed.edges v isId] at among
  obtain ⟨e, mem, same⟩ := List.mem_map.mp among
  exact ⟨v, e, isId, rfl, mem, same⟩

end

/-! ### Runs with renamed ids -/

namespace DynamicGraph
variable {W : Type} {g g' : DynamicGraph W} {f : Int → Int} {U : Int → Prop}

/-- The ids in a mutation. -/
def Op.ids : Op W → List Int
  | .addNode id _ _ => [id]
  | .removeNode id => [id]
  | .addEdge fromId toId _ _ => [fromId, toId]
  | .removeEdge fromId toId _ => [fromId, toId]

/-- A mutation with its ids renamed. -/
def Op.rename (f : Int → Int) : Op W → Op W
  | .addNode id labelPtr props => .addNode (f id) labelPtr props
  | .removeNode id => .removeNode (f id)
  | .addEdge fromId toId rel weight => .addEdge (f fromId) (f toId) rel weight
  | .removeEdge fromId toId rel => .removeEdge (f fromId) (f toId) rel

/-- `g` has its ids in `U`, and the lists of `g'` are those of `g`, renamed. -/
structure Parallel (U : Int → Prop) (f : Int → Int) (g g' : DynamicGraph W) : Prop where
  ids : ∀ v, IsId g v → U v
  edges : ∀ v, U v → g'.neighbors (f v) = (g.neighbors v).map (renameEdge f)
  only : ∀ v', g'.neighbors v' ≠ [] → ∃ v, U v ∧ f v = v'

theorem parallel_empty : Parallel U f (empty : DynamicGraph W) empty := by
  refine ⟨?_, fun v _ => rfl, fun v' some => absurd rfl some⟩
  rintro v (node | some | ⟨u, e, edge, -⟩)
  · simp [hasNode, empty] at node
  · exact absurd rfl some
  · cases edge

/-- One list is replaced on both sides. -/
theorem Parallel.set (parallel : Parallel U f g g') (injective : ∀ u v, U u → U v → f u = f v → u = v)
    {h h' : DynamicGraph W} {a : Int} (inside : U a) (es : List (Edge W))
    (nodes : ∀ v, h.hasNode v → g.hasNode v)
    (list : ∀ u, h.neighbors u = if u = a then es else g.neighbors u)
    (list' : ∀ u, h'.neighbors u = if u = f a then es.map (renameEdge f) else g'.neighbors u)
    (ends : ∀ e ∈ es, U e.toId) : Parallel U f h h' := by
  refine ⟨?_, ?_, ?_⟩
  · rintro v (node | some | ⟨u, e, edge, rfl⟩)
    · exact parallel.ids v (Or.inl (nodes v node))
    · rw [list] at some
      by_cases here : v = a
      · rw [here]
        exact inside
      · rw [if_neg here] at some
        exact parallel.ids v (Or.inr (Or.inl some))
    · rw [list] at edge
      split at edge
      · exact ends e edge
      · exact parallel.ids _ (IsId.of_edge edge).2
  · intro v isIn
    rw [list, list']
    by_cases here : v = a
    · rw [if_pos here, if_pos (congrArg f here)]
    · rw [if_neg here, if_neg fun same => here (injective v a isIn inside same)]
      exact parallel.edges v isIn
  · intro v' some
    rw [list'] at some
    by_cases here : v' = f a
    · exact ⟨a, inside, here.symm⟩
    · rw [if_neg here] at some
      exact parallel.only v' some

/-- Filters that fit pick the same edges on both sides. -/
theorem filter_renameEdge {p p' : Edge W → Bool} {es : List (Edge W)}
    (fit : ∀ e ∈ es, p' (renameEdge f e) = p e) :
    (es.map (renameEdge f)).filter p' = (es.filter p).map (renameEdge f) := by
  rw [List.filter_map]
  congr 1
  exact List.filter_congr fit

theorem Parallel.ends (parallel : Parallel U f g g') {a : Int} {e : Edge W}
    (mem : e ∈ g.neighbors a) : U e.toId :=
  parallel.ids _ (IsId.of_edge mem).2

/-- A node has no edges of its own. -/
theorem Parallel.addNode (parallel : Parallel U f g g') {id : Int} (inside : U id)
    (labelPtr : CharPtr) (props : Bytes) :
    Parallel U f (g.addNode id labelPtr props) (g'.addNode (f id) labelPtr props) := by
  have list (u : Int) : (g.addNode id labelPtr props).neighbors u = g.neighbors u :=
    row_addNode g.adj id u
  have list' (u : Int) : (g'.addNode (f id) labelPtr props).neighbors u = g'.neighbors u :=
    row_addNode g'.adj (f id) u
  refine ⟨?_, ?_, ?_⟩
  · rintro v (node | some | ⟨u, e, edge, rfl⟩)
    · by_cases here : v = id
      · rw [here]
        exact inside
      · refine parallel.ids v (Or.inl ?_)
        change ((g.nodes.set id _).find v).isSome = true at node
        rwa [UnorderedMap.find_set, if_neg here] at node
    · exact parallel.ids v (Or.inr (Or.inl (by rwa [← list])))
    · exact parallel.ends (by rwa [← list])
  · intro v isIn
    rw [list, list']
    exact parallel.edges v isIn
  · intro v' some
    exact parallel.only v' (by rwa [← list'])

/-- Every list loses the edges to the node, and that of the node all of its own. -/
theorem Parallel.removeNode [DecidableEq W] (parallel : Parallel U f g g')
    (injective : ∀ u v, U u → U v → f u = f v → u = v) (mirror : Mirrored g.adj g.radj)
    (mirror' : Mirrored g'.adj g'.radj) {id : Int} (inside : U id) :
    Parallel U f (g.removeNode id) (g'.removeNode (f id)) := by
  have same {v : Int} (isIn : U v) : f v = f id ↔ v = id :=
    ⟨injective v id isIn inside, congrArg f⟩
  have rows (u : Int) : (g.removeNode id).neighbors u = _ := (removeNode_rows mirror id).1 u
  have rows' (u : Int) : (g'.removeNode (f id)).neighbors u = _ :=
    (removeNode_rows mirror' (f id)).1 u
  refine ⟨?_, ?_, ?_⟩
  · rintro v (node | some | ⟨u, e, edge, rfl⟩)
    · refine parallel.ids v (Or.inl ?_)
      change ((g.nodes.erase id).find v).isSome = true at node
      rw [UnorderedMap.find_erase] at node
      split at node
      · cases node
      · exact node
    · rw [rows] at some
      split at some
      · exact absurd rfl some
      · refine parallel.ids v (Or.inr (Or.inl fun none => some ?_))
        rw [none, List.filter_nil]
    · rw [rows] at edge
      split at edge
      · cases edge
      · exact parallel.ends (List.mem_filter.mp edge).1
  · intro v isIn
    rw [rows, rows', parallel.edges v isIn]
    by_cases here : v = id
    · rw [if_pos here, if_pos (congrArg f here)]
      rfl
    · rw [if_neg here, if_neg fun equal => here ((same isIn).mp equal)]
      refine filter_renameEdge fun e mem => ?_
      rw [decide_eq_decide]
      exact not_congr (same (parallel.ends mem))
  · intro v' some
    rw [rows'] at some
    split at some
    · exact absurd rfl some
    · refine parallel.only v' fun none => some ?_
      rw [none, List.filter_nil]

/-- The list of the source gets one edge more. -/
theorem Parallel.addEdge (parallel : Parallel U f g g')
    (injective : ∀ u v, U u → U v → f u = f v → u = v) {fromId toId : Int} (isFrom : U fromId)
    (isTo : U toId) (rel : Bytes) (weight : W) :
    Parallel U f (g.addEdge fromId toId rel weight)
      (g'.addEdge (f fromId) (f toId) rel weight) := by
  refine parallel.set injective isFrom (g.neighbors fromId ++ [Edge.mk toId rel weight])
    (fun v node => node) (row_set g.adj fromId · _) ?_ ?_
  · intro u
    rw [List.map_append, ← parallel.edges fromId isFrom]
    exact row_set g'.adj (f fromId) u _
  · intro e mem
    rcases List.mem_append.mp mem with old | new
    · exact parallel.ends old
    · rw [List.mem_singleton.mp new]
      exact isTo

/-- The list of the source loses the edges that match. -/
theorem Parallel.removeEdge (parallel : Parallel U f g g')
    (injective : ∀ u v, U u → U v → f u = f v → u = v) {fromId toId : Int} (isFrom : U fromId)
    (isTo : U toId) (rel : Bytes) :
    Parallel U f (g.removeEdge fromId toId rel) (g'.removeEdge (f fromId) (f toId) rel) := by
  have same {v : Int} (isIn : U v) : f v = f toId ↔ v = toId :=
    ⟨injective v toId isIn isTo, congrArg f⟩
  have renamed : (g'.neighbors (f fromId)).filter (fun e => !matchesEdge (f toId) rel e) =
      ((g.neighbors fromId).filter fun e => !matchesEdge toId rel e).map (renameEdge f) := by
    rw [parallel.edges fromId isFrom]
    refine filter_renameEdge fun e mem => ?_
    simp only [matchesEdge, renameEdge, same (parallel.ends mem)]
  refine parallel.set injective isFrom
    ((g.neighbors fromId).filter fun e => !matchesEdge toId rel e) (fun v node => node) ?_ ?_
    fun e mem => parallel.ends (List.mem_filter.mp mem).1
  · intro u
    change row (g.removeEdge fromId toId rel).adj u = _
    simp only [DynamicGraph.removeEdge, removeFrom_eq, row_set]
    rfl
  · intro u
    change row (g'.removeEdge (f fromId) (f toId) rel).adj u = _
    rw [← renamed]
    simp only [DynamicGraph.removeEdge, removeFrom_eq, row_set]
    rfl

/-- A mutation and the renamed one keep two graphs parallel. -/
theorem Parallel.apply [DecidableEq W] (parallel : Parallel U f g g')
    (injective : ∀ u v, U u → U v → f u = f v → u = v) (mirror : Mirrored g.adj g.radj)
    (mirror' : Mirrored g'.adj g'.radj) (op : Op W) (inside : ∀ v ∈ op.ids, U v) :
    Parallel U f (g.apply op) (g'.apply (op.rename f)) := by
  cases op with
  | addNode id labelPtr props =>
    exact parallel.addNode (inside id (by simp [Op.ids])) labelPtr props
  | removeNode id =>
    exact parallel.removeNode injective mirror mirror' (inside id (by simp [Op.ids]))
  | addEdge fromId toId rel weight =>
    exact parallel.addEdge injective (inside fromId (by simp [Op.ids]))
      (inside toId (by simp [Op.ids])) rel weight
  | removeEdge fromId toId rel =>
    exact parallel.removeEdge injective (inside fromId (by simp [Op.ids]))
      (inside toId (by simp [Op.ids])) rel

/-- Mutations with ids that are renamed lead to the renamed graph. -/
theorem renamed_run [DecidableEq W] (ops : List (Op W))
    (injective : ∀ u v, (∃ op ∈ ops, u ∈ op.ids) → (∃ op ∈ ops, v ∈ op.ids) → f u = f v → u = v) :
    (∀ v, IsId (run ops empty) v → ∃ op ∈ ops, v ∈ op.ids) ∧
      Renamed f (run ops empty) (run (ops.map (Op.rename f)) empty) := by
  suffices parallel : ∀ (rest : List (Op W)) (g g' : DynamicGraph W), (∀ op ∈ rest, op ∈ ops) →
      Mirrored g.adj g.radj → Mirrored g'.adj g'.radj →
      Parallel (fun v => ∃ op ∈ ops, v ∈ op.ids) f g g' →
      Parallel (fun v => ∃ op ∈ ops, v ∈ op.ids) f (run rest g) (run (rest.map (Op.rename f)) g') by
    have ends := parallel ops empty empty (fun _ mem => mem) mirrored_empty mirrored_empty
      parallel_empty
    refine ⟨ends.ids, ?_, fun v isId => ends.edges v (ends.ids v isId), ?_⟩
    · intro u v isId isId' same
      exact injective u v (ends.ids u isId) (ends.ids v isId') same
    · intro v' some
      obtain ⟨v, isIn, rfl⟩ := ends.only v' some
      rw [ends.edges v isIn] at some
      exact ⟨v, Or.inr (Or.inl fun none => some (by rw [none]; rfl)), rfl⟩
  intro rest
  induction rest with
  | nil => exact fun g g' _ _ _ parallel => parallel
  | cons op rest ih =>
    intro g g' among mirror mirror' parallel
    refine ih _ _ (fun op' mem => among op' (by simp [mem])) (mirrored_apply mirror op)
      (mirrored_apply mirror' (op.rename f)) (parallel.apply injective mirror mirror' op ?_)
    exact fun v mem => ⟨op, among op (by simp), mem⟩

end DynamicGraph

end FastGraph
