import FastGraph.Graph.Dfs
import FastGraph.Graph.Proofs.Paths

/-!
# Components

`bfs_component` marks a node when it enters the queue and `dfs_component` when it leaves the stack.
Both return and have listed what the source reaches, each node once.
-/

namespace FastGraph
open BfsArrays

variable {W : Type} {g : DynamicGraph W} {source node : Int}

/-! ### The queue -/

namespace Component
open BreadthFirst

variable {m : Marks} {known : List Int} {E P : List (Int × Nat)}

/-- What the loop over the edges of a node does: the ends that were not marked are. -/
theorem foldl_markEdge (seen : ∀ x, m.seen x = decide (x ∈ known)) (edges : List (Edge W)) :
    (edges.foldl markEdge m).component = m.component ∧
      (edges.foldl markEdge m).queue = m.queue ++ firsts known (edges.map Edge.toId) ∧
      ∀ x, (edges.foldl markEdge m).seen x =
        decide (x ∈ known ++ firsts known (edges.map Edge.toId)) := by
  induction edges generalizing m known with
  | nil => simpa [firsts] using seen
  | cons edge edges ih =>
    rw [List.foldl_cons, List.map_cons, firsts]
    by_cases old : edge.toId ∈ known
    · have kept : markEdge m edge = m := by
        rw [markEdge, seen, decide_eq_true old, if_pos rfl]
      rw [kept, if_pos old]
      exact ih seen
    · have marked : markEdge m edge =
          { m with visited := m.visited.set edge.toId true, queue := m.queue ++ [edge.toId] } := by
        rw [markEdge, seen, decide_eq_false old, if_neg (by decide)]
      rw [marked, if_neg old]
      have seen' : ∀ x, Marks.seen ⟨m.component, m.visited.set edge.toId true,
          m.queue ++ [edge.toId]⟩ x = decide (x ∈ known ++ [edge.toId]) := by
        intro x
        have before := seen x
        unfold Marks.seen at before ⊢
        rw [UnorderedMap.find_set]
        by_cases here : x = edge.toId
        · simp [here]
        · simp [here, before]
      obtain ⟨component, queue, marks⟩ := ih seen'
      refine ⟨component, queue.trans (by simp), ?_⟩
      intro x
      rw [marks, List.append_assoc, List.singleton_append]

/-- The variables hold what a search has expanded and what is still to expand. -/
structure Holds (m : Marks) (E P : List (Int × Nat)) : Prop where
  component : m.component = E.map Prod.fst
  queue : m.queue = P.map Prod.fst
  seen : ∀ x, m.seen x = decide (x ∈ (E ++ P).map Prod.fst)

/-- One iteration. -/
theorem Holds.step {k : Nat} (holds : Holds m E ((node, k) :: P)) :
    ∃ m', Holds m' (E ++ [(node, k)])
        (P ++ (firsts ((E ++ (node, k) :: P).map Prod.fst) (successors g [] node)).map (·, k + 1)) ∧
      ∀ fuel, loop g (fuel + 1) m = loop g fuel m' := by
  obtain ⟨component, queue, seen⟩ := holds
  rw [List.map_cons] at queue
  have start : ∀ x, Marks.seen ⟨m.component ++ [node], m.visited, P.map Prod.fst⟩ x =
      decide (x ∈ (E ++ (node, k) :: P).map Prod.fst) := seen
  obtain ⟨component', queue', seen'⟩ := foldl_markEdge start (g.neighbors node)
  rw [← successors_nil] at queue' seen'
  refine ⟨(g.neighbors node).foldl markEdge ⟨m.component ++ [node], m.visited, P.map Prod.fst⟩,
    ⟨?_, ?_, ?_⟩, ?_⟩
  · rw [component', component, List.map_append, List.map_singleton]
  · rw [queue', map_fst_append_level]
  · intro x
    rw [seen', List.append_assoc, List.singleton_append, ← List.cons_append, ← List.append_assoc,
      map_fst_append_level]
  · intro fuel
    rw [loop, queue]

theorem loop_returns (levels : Levels (successors g []) source E P) (holds : Holds m E P) (n : Nat)
    (bound : (Dijkstra.endpoints g source).card < n + E.length) :
    ∃ E', Levels (successors g []) source E' [] ∧
      ∀ fuel, n ≤ fuel → loop g fuel m = some (E'.map Prod.fst) := by
  induction n generalizing m E P with
  | zero =>
    have few := levels.length_le (U := Dijkstra.endpoints g source) (Finset.mem_insert_self _ _)
      (closed_successors g [] source)
    rw [List.length_append] at few
    exact absurd bound (by omega)
  | succ n ih =>
    cases P with
    | nil =>
      refine ⟨E, levels, ?_⟩
      intro fuel enough
      obtain ⟨fuel, rfl⟩ := Nat.exists_eq_add_of_le' (Nat.le_of_add_left_le enough)
      rw [loop, holds.queue, List.map_nil]
      exact congrArg some holds.component
    | cons e P =>
      obtain ⟨m', holds', step⟩ := holds.step (g := g)
      obtain ⟨E', ended, returns⟩ := ih levels.step holds' (by
        rw [List.length_append, List.length_singleton]
        omega)
      refine ⟨E', ended, ?_⟩
      intro fuel enough
      obtain ⟨fuel, rfl⟩ := Nat.exists_eq_add_of_le' (Nat.le_of_add_left_le enough)
      rw [step]
      exact returns fuel (by omega)

/-- `bfs_component` returns when nothing is left in its queue. -/
theorem returns (g : DynamicGraph W) (source : Int) :
    ∃ E, Levels (successors g []) source E [] ∧
      ∃ N, ∀ fuel, N ≤ fuel → bfsComponent fuel g source = some (E.map Prod.fst) := by
  have start : Holds ⟨[], UnorderedMap.set ∅ source true, [source]⟩ [] [(source, 0)] := by
    refine ⟨rfl, rfl, ?_⟩
    intro x
    rw [Marks.seen, UnorderedMap.find_set]
    by_cases here : x = source
    · simp [here]
    · simp [here]
  obtain ⟨E, levels, ended⟩ := loop_returns .start start _ (Nat.lt_succ_self _)
  exact ⟨E, levels, _, ended⟩

end Component

/-! ### The stack -/

namespace DfsComponent
open DepthFirst

variable {m : Marks} {D S : List Int}

/-- What the loop over the edges of a node does: the ends that are not marked go on the stack. -/
theorem foldl_pushEdge (seen : ∀ x, m.seen x = decide (x ∈ D)) (edges : List (Edge W)) :
    edges.foldl pushEdge m =
      { m with stack := ((edges.map Edge.toId).filter (· ∉ D)).reverse ++ m.stack } := by
  induction edges generalizing m with
  | nil => rfl
  | cons edge edges ih =>
    rw [List.foldl_cons, List.map_cons]
    by_cases old : edge.toId ∈ D
    · rw [pushEdge, seen, decide_eq_true old, if_pos rfl, ih seen,
        List.filter_cons_of_neg (by simpa using old)]
    · rw [pushEdge, seen, decide_eq_false old, if_neg (by decide), ih (by exact seen),
        List.filter_cons_of_pos (by simpa using old)]
      simp

/-- The variables hold what a search has visited, and its stack. -/
structure Holds (m : Marks) (D S : List Int) : Prop where
  component : m.component = D
  stack : m.stack = S
  seen : ∀ x, m.seen x = decide (x ∈ D)

theorem loop_returns (visits : Visits (successors g []) source D S) (holds : Holds m D S) (n : Nat)
    (bound : remaining (successors g []) (Dijkstra.endpoints g source) D S < n) :
    ∃ D', Visits (successors g []) source D' [] ∧
      ∀ fuel, n ≤ fuel → loop g fuel m = some D' := by
  induction n generalizing m D S with
  | zero => exact absurd bound (Nat.not_lt_zero _)
  | succ n ih =>
    obtain ⟨component, stack, seen⟩ := holds
    cases S with
    | nil =>
      refine ⟨D, visits, ?_⟩
      intro fuel enough
      obtain ⟨fuel, rfl⟩ := Nat.exists_eq_add_of_le' (Nat.le_of_add_left_le enough)
      rw [loop, stack]
      exact congrArg some component
    | cons node S =>
      by_cases old : node ∈ D
      · have holds' : Holds { m with stack := S } D S := ⟨component, rfl, seen⟩
        obtain ⟨D', ended, returns⟩ := ih (visits.skip old) holds' (by
          rw [remaining, List.length_cons] at bound
          rw [remaining]
          omega)
        refine ⟨D', ended, ?_⟩
        intro fuel enough
        obtain ⟨fuel, rfl⟩ := Nat.exists_eq_add_of_le' (Nat.le_of_add_left_le enough)
        have marked : Marks.seen { m with stack := S } node = true :=
          (seen node).trans (decide_eq_true old)
        rw [loop, stack]
        simp only [marked, if_true]
        exact returns fuel (by omega)
      · have marks : ∀ x, Marks.seen ⟨m.component ++ [node], m.visited.set node true, S⟩ x =
            decide (x ∈ D ++ [node]) := by
          intro x
          have before := seen x
          unfold Marks.seen at before ⊢
          rw [UnorderedMap.find_set]
          by_cases here : x = node
          · simp [here]
          · simp [here, before]
        have pushed := foldl_pushEdge marks (g.neighbors node)
        rw [← successors_nil] at pushed
        have inside : node ∈ Dijkstra.endpoints g source :=
          (visits.reaches (Or.inr List.mem_cons_self)).mem (Finset.mem_insert_self _ _)
            (closed_successors g [] source)
        have fewer : remaining (successors g []) (Dijkstra.endpoints g source) (D ++ [node])
              (((successors g [] node).filter (· ∉ D ++ [node])).reverse ++ S) <
            remaining (successors g []) (Dijkstra.endpoints g source) D (node :: S) :=
          remaining_visit inside old
        have holds' : Holds ((g.neighbors node).foldl pushEdge
            ⟨m.component ++ [node], m.visited.set node true, S⟩) (D ++ [node])
            (((successors g [] node).filter (· ∉ D ++ [node])).reverse ++ S) := by
          rw [pushed, component]
          exact ⟨rfl, rfl, component ▸ marks⟩
        obtain ⟨D', ended, returns⟩ :=
          ih (visits.visit old) holds' (Nat.lt_of_lt_of_le fewer (Nat.le_of_lt_succ bound))
        refine ⟨D', ended, ?_⟩
        intro fuel enough
        obtain ⟨fuel, rfl⟩ := Nat.exists_eq_add_of_le' (Nat.le_of_add_left_le enough)
        have unmarked : Marks.seen { m with stack := S } node = false :=
          (seen node).trans (decide_eq_false old)
        rw [loop, stack]
        simp only [unmarked, Bool.false_eq_true, if_false]
        exact returns fuel (by omega)

end DfsComponent

/-- Both functions return lists without repetition of the nodes that the source reaches, and so
one list in two orders. -/
theorem components_spec (g : DynamicGraph W) (source : Int) :
    ∃ bfs dfs N, (∀ fuel, N ≤ fuel →
        bfsComponent fuel g source = some bfs ∧ dfsComponent fuel g source = some dfs) ∧
      (bfs.Nodup ∧ ∀ v, v ∈ bfs ↔ Reaches g [] source v) ∧
      (dfs.Nodup ∧ ∀ v, v ∈ dfs ↔ Reaches g [] source v) ∧ bfs.Perm dfs := by
  obtain ⟨E, levels, _, bfs⟩ := Component.returns g source
  have stacked : DfsComponent.Holds ⟨[], ∅, [source]⟩ [] [source] := ⟨rfl, rfl, fun _ => rfl⟩
  obtain ⟨D, visits, dfs⟩ := DfsComponent.loop_returns .start stacked _ (Nat.lt_succ_self _)
  have distinct : (E.map Prod.fst).Nodup := by
    have all := levels.graded.distinct
    rwa [List.append_nil] at all
  have members : ∀ v, v ∈ E.map Prod.fst ↔ Reaches g [] source v := by
    intro v
    constructor
    · intro mem
      obtain ⟨e, among, rfl⟩ := List.mem_map.mp mem
      exact reaches_of_layer (levels.graded.levels e (List.mem_append_left _ among)).1
    · intro reaches
      obtain ⟨k, level⟩ := reaches.exists_level
      exact levels.complete level.1
  have members' : ∀ v, v ∈ D ↔ Reaches g [] source v := fun v => visits.mem_iff.trans reaches_iff.symm
  refine ⟨_, D, _, fun fuel enough => ⟨bfs fuel (le_of_max_le_left enough),
    dfs fuel (le_of_max_le_right enough)⟩, ⟨distinct, members⟩, ⟨visits.nodup, members'⟩, ?_⟩
  rw [List.perm_ext_iff_of_nodup distinct visits.nodup]
  intro v
  rw [members, members']

end FastGraph
