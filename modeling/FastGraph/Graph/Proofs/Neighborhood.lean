import FastGraph.Graph.Proofs.Paths

/-!
# Neighborhoods

`bfs_neighborhood` expands the nodes of fewer hops than the cut-off. The hops in the queue never
decrease, so that everything behind the first node that is not expanded is not expanded either.
-/

namespace FastGraph
open BreadthFirst BfsArrays

/-- What `bfs_neighborhood` lists: each node of a distance from 1 to the cut-off once, the nearer
nodes first, with its distance and an edge that leads to it from a node one hop nearer. -/
structure Neighbors {W : Type} (g : DynamicGraph W) (rel : Bytes) (source maxHops : Int)
    (result : List HopResult) : Prop where
  once : (result.map HopResult.node).Nodup
  within : ∀ v, v ∈ result.map HopResult.node ↔
    ∃ k, HopDistance g rel source v k ∧ 1 ≤ k ∧ (k : Int) ≤ maxHops
  ordered : result.Pairwise fun r r' => r.hop ≤ r'.hop
  found : ∀ r ∈ result, ∃ k : Nat, r.hop = k + 1 ∧ HopDistance g rel source r.node (k + 1) ∧
    HopDistance g rel source r.via k ∧
    ∃ edge ∈ g.neighbors r.via, passes rel edge ∧ edge.toId = r.node ∧ edge.relType = r.relType

namespace Neighborhood

variable {W : Type} {g : DynamicGraph W} {rel : Bytes} {source node maxHops hop : Int} {h : Hops}
  {known : List Int} {E P : List (Int × Nat)}

/-- An entry of the queue. -/
def entry (e : Int × Nat) : Int × Int := (e.1, e.2)

/-- A node of the result with its hops. -/
def labelled (r : HopResult) : Int × Int := (r.node, r.hop)

/-- The entry says by which edge of the node its own node was found. -/
def FoundBy (rel : Bytes) (edges : List (Edge W)) (r : HopResult) : Prop :=
  ∃ edge ∈ edges, passes rel edge ∧ edge.toId = r.node ∧ edge.relType = r.relType

/-- What the loop over the edges of a node does: the ends that were not found are. -/
theorem foldl_hopEdge (rel : Bytes) (node hop : Int)
    (seen : ∀ x, (h.visited.find x).isSome = decide (x ∈ known)) (edges : List (Edge W)) :
    ∃ rs, (edges.foldl (hopEdge rel node hop) h).result = h.result ++ rs ∧
      (edges.foldl (hopEdge rel node hop) h).queue = h.queue ++ rs.map labelled ∧
      rs.map labelled = (firsts known (leads rel edges)).map (·, hop + 1) ∧
      (∀ x, ((edges.foldl (hopEdge rel node hop) h).visited.find x).isSome =
        decide (x ∈ known ++ firsts known (leads rel edges))) ∧
      ∀ r ∈ rs, r.via = node ∧ FoundBy rel edges r := by
  induction edges generalizing h known with
  | nil => exact ⟨[], by simp, by simp, rfl, by simpa [leads, firsts] using seen, by simp⟩
  | cons edge edges ih =>
    have later : ∀ r, FoundBy rel edges r → FoundBy rel (edge :: edges) r := by
      rintro r ⟨e, among, rest⟩
      exact ⟨e, List.mem_cons_of_mem _ among, rest⟩
    rw [List.foldl_cons]
    by_cases matching : passes rel edge
    · have lead : leads rel (edge :: edges) = edge.toId :: leads rel edges := by
        rw [leads, List.filter_cons_of_pos matching, List.map_cons, leads]
      have unfiltered : ¬ (rel ≠ [] ∧ edge.relType ≠ rel) := by
        rw [passes, decide_eq_true_iff] at matching
        tauto
      rw [lead, firsts]
      by_cases old : edge.toId ∈ known
      · have kept : hopEdge rel node hop h edge = h := by
          rw [hopEdge, if_neg unfiltered, seen, decide_eq_true old, if_pos rfl]
        rw [kept, if_pos old]
        obtain ⟨rs, result, queue, nodes, seen', origin⟩ := ih seen
        exact ⟨rs, result, queue, nodes, seen', fun r mem => (origin r mem).imp_right (later r)⟩
      · have listed : hopEdge rel node hop h edge =
            { result := h.result ++ [⟨edge.toId, hop + 1, node, edge.relType⟩]
              visited := h.visited.set edge.toId (hop + 1)
              queue := h.queue ++ [(edge.toId, hop + 1)] } := by
          rw [hopEdge, if_neg unfiltered, seen, decide_eq_false old, if_neg (by decide)]
        have marks : ∀ x, ((hopEdge rel node hop h edge).visited.find x).isSome =
            decide (x ∈ known ++ [edge.toId]) := by
          intro x
          rw [listed, UnorderedMap.find_set]
          by_cases here : x = edge.toId
          · simp [here]
          · simp [here, seen]
        rw [if_neg old]
        obtain ⟨rs, result, queue, nodes, seen', origin⟩ := ih marks
        refine ⟨⟨edge.toId, hop + 1, node, edge.relType⟩ :: rs, ?_, ?_, ?_, ?_, ?_⟩
        · rw [result, listed, List.append_assoc, List.singleton_append]
        · rw [queue, listed, List.append_assoc, List.singleton_append]
          rfl
        · rw [List.map_cons, List.map_cons, nodes]
          rfl
        · intro x
          rw [seen', List.append_assoc, List.singleton_append]
        · intro r mem
          rcases List.mem_cons.mp mem with rfl | tail
          · exact ⟨rfl, edge, List.mem_cons_self, matching, rfl, rfl⟩
          · exact (origin r tail).imp_right (later r)
    · have lead : leads rel (edge :: edges) = leads rel edges := by
        rw [leads, List.filter_cons_of_neg matching, leads]
      have kept : hopEdge rel node hop h edge = h := by
        rw [passes, decide_eq_true_iff, not_or] at matching
        rw [hopEdge, if_pos matching]
      rw [kept, lead]
      obtain ⟨rs, result, queue, nodes, seen', origin⟩ := ih seen
      exact ⟨rs, result, queue, nodes, seen', fun r mem => (origin r mem).imp_right (later r)⟩

/-- Where an entry of the result comes from. -/
def Origin (g : DynamicGraph W) (rel : Bytes) (source : Int) (r : HopResult) : Prop :=
  ∃ k : Nat, r.hop = k + 1 ∧ Level (successors g rel) source r.via k ∧
    FoundBy rel (g.neighbors r.via) r

/-- The variables hold what a search has expanded and what is still to expand. -/
structure Holds (g : DynamicGraph W) (rel : Bytes) (source : Int) (h : Hops)
    (E P : List (Int × Nat)) : Prop where
  queue : h.queue = P.map entry
  listed : (source, 0) :: h.result.map labelled = (E ++ P).map entry
  seen : ∀ x, (h.visited.find x).isSome = decide (x ∈ (E ++ P).map Prod.fst)
  origin : ∀ r ∈ h.result, Origin g rel source r

/-- One iteration at a node that is expanded. -/
theorem Holds.step {k : Nat} (holds : Holds g rel source h E ((node, k) :: P))
    (levels : Levels (successors g rel) source E ((node, k) :: P)) (below : (k : Int) < maxHops) :
    ∃ h', Holds g rel source h' (E ++ [(node, k)])
        (P ++ (firsts ((E ++ (node, k) :: P).map Prod.fst) (successors g rel node)).map (·, k + 1)) ∧
      ∀ fuel, loop g maxHops rel (fuel + 1) h = loop g maxHops rel fuel h' := by
  obtain ⟨queue, listed, seen, origin⟩ := holds
  obtain ⟨rs, result', queue', nodes, seen', origin'⟩ :=
    foldl_hopEdge (h := { h with queue := P.map entry }) rel node k seen (g.neighbors node)
  rw [show leads rel (g.neighbors node) = successors g rel node from rfl] at nodes seen'
  have entries : rs.map labelled = ((firsts ((E ++ (node, k) :: P).map Prod.fst)
      (successors g rel node)).map (·, k + 1)).map entry := by
    rw [nodes, List.map_map]
    rfl
  refine ⟨(g.neighbors node).foldl (hopEdge rel node k) { h with queue := P.map entry },
    ⟨?_, ?_, ?_, ?_⟩, ?_⟩
  · rw [queue', entries, List.map_append (f := entry)]
  · rw [result', List.map_append, entries, ← List.cons_append, listed, ← List.map_append]
    simp
  · intro x
    rw [seen', List.append_assoc, List.singleton_append, ← List.cons_append, ← List.append_assoc,
      map_fst_append_level]
  · intro r mem
    rw [result'] at mem
    rcases List.mem_append.mp mem with old | new
    · exact origin r old
    · obtain ⟨via, found⟩ := origin' r new
      have hops : r.hop = k + 1 := by
        have mem' : labelled r ∈ rs.map labelled := List.mem_map_of_mem new
        rw [nodes] at mem'
        obtain ⟨x, -, same⟩ := List.mem_map.mp mem'
        exact (congrArg Prod.snd same).symm
      refine ⟨k, hops, ?_, via ▸ found⟩
      rw [via]
      exact levels.graded.levels (node, k) (List.mem_append_right _ List.mem_cons_self)
  · intro fuel
    rw [loop, queue, List.map_cons]
    exact if_neg (not_le.mpr below)

/-- Nodes that are not expanded leave the queue. -/
theorem loop_drains (rest : ∀ e ∈ h.queue, maxHops ≤ e.2) {fuel : Nat}
    (enough : h.queue.length < fuel) : loop g maxHops rel fuel h = some h.result := by
  induction fuel generalizing h with
  | zero => exact absurd enough (Nat.not_lt_zero _)
  | succ fuel ih =>
    rw [loop]
    cases queue : h.queue with
    | nil => rfl
    | cons e tail =>
      rw [queue] at rest enough
      refine (if_pos (rest e List.mem_cons_self)).trans (ih (h := { h with queue := tail }) ?_ ?_)
      · exact fun e mem => rest e (List.mem_cons_of_mem _ mem)
      · exact Nat.lt_of_succ_lt_succ enough

theorem loop_returns (levels : Levels (successors g rel) source E P)
    (holds : Holds g rel source h E P)
    (near : ∀ e ∈ E ++ P, e.1 = source ∨ (e.2 : Int) ≤ maxHops) (n : Nat)
    (bound : (Dijkstra.endpoints g source).card < n + E.length) :
    ∃ E' P' h', Levels (successors g rel) source E' P' ∧ Holds g rel source h' E' P' ∧
      (∀ e ∈ E' ++ P', e.1 = source ∨ (e.2 : Int) ≤ maxHops) ∧ (∀ e ∈ P', maxHops ≤ e.2) ∧
      ∃ N, ∀ fuel, N ≤ fuel → loop g maxHops rel fuel h = some h'.result := by
  induction n generalizing h E P with
  | zero =>
    have few := levels.length_le (U := Dijkstra.endpoints g source) (Finset.mem_insert_self _ _)
      (closed_successors g rel source)
    rw [List.length_append] at few
    exact absurd bound (by omega)
  | succ n ih =>
    by_cases all : ∀ e ∈ P, maxHops ≤ e.2
    · refine ⟨E, P, h, levels, holds, near, all, h.queue.length + 1, ?_⟩
      intro fuel enough
      refine loop_drains ?_ enough
      rw [holds.queue]
      intro e mem
      obtain ⟨e, among, rfl⟩ := List.mem_map.mp mem
      exact all e among
    · cases P with
      | nil => exact absurd (fun _ none => by cases none) all
      | cons e P =>
        obtain ⟨node, k⟩ := e
        -- the first node of the queue has the fewest hops
        have below : (k : Int) < maxHops := by
          by_contra beyond
          apply all
          intro e mem
          rcases List.mem_cons.mp mem with rfl | later
          · exact not_lt.mp beyond
          · have ordered := (List.pairwise_append.mp levels.graded.ordered).2.1
            have := List.rel_of_pairwise_cons ordered later
            simp only at this
            omega
        obtain ⟨h', holds', step⟩ := holds.step levels below
        have near' : ∀ e ∈ E ++ [(node, k)] ++ (P ++ (firsts ((E ++ (node, k) :: P).map Prod.fst)
            (successors g rel node)).map (·, k + 1)), e.1 = source ∨ (e.2 : Int) ≤ maxHops := by
          rw [List.append_assoc, List.singleton_append, ← List.cons_append, ← List.append_assoc]
          intro e mem
          rcases List.mem_append.mp mem with old | new
          · exact near e old
          · obtain ⟨x, -, rfl⟩ := List.mem_map.mp new
            right
            push_cast
            omega
        obtain ⟨E', P', h'', levels', holds'', near'', all', N, returns⟩ :=
          ih levels.step holds' near' (by
            rw [List.length_append, List.length_singleton]
            omega)
        refine ⟨E', P', h'', levels', holds'', near'', all', N + 1, ?_⟩
        intro fuel enough
        obtain ⟨fuel, rfl⟩ := Nat.exists_eq_add_of_le' (Nat.le_of_add_left_le enough)
        rw [step]
        exact returns fuel (by omega)

/-- The nodes of the result, behind the source. -/
theorem Holds.nodes (holds : Holds g rel source h E P) :
    source :: h.result.map HopResult.node = (E ++ P).map Prod.fst := by
  have listed := congrArg (List.map Prod.fst) holds.listed
  simpa [labelled, entry, Function.comp_def] using listed

/-- What is in the result when the nodes still to expand are too far away. -/
theorem Holds.neighbors (holds : Holds g rel source h E P)
    (levels : Levels (successors g rel) source E P)
    (near : ∀ e ∈ E ++ P, e.1 = source ∨ (e.2 : Int) ≤ maxHops) (all : ∀ e ∈ P, maxHops ≤ e.2) :
    Neighbors g rel source maxHops h.result := by
  have graded := levels.graded
  have distinct : (source :: h.result.map HopResult.node).Nodup := holds.nodes ▸ graded.distinct
  obtain ⟨apart, once⟩ := List.nodup_cons.mp distinct
  have level : ∀ r ∈ h.result, ∃ e ∈ E ++ P, e.1 = r.node ∧ (e.2 : Int) = r.hop := by
    intro r mem
    have mem' : labelled r ∈ (E ++ P).map entry :=
      holds.listed ▸ List.mem_cons_of_mem _ (List.mem_map_of_mem mem)
    obtain ⟨e, among, same⟩ := List.mem_map.mp mem'
    exact ⟨e, among, congrArg Prod.fst same, congrArg Prod.snd same⟩
  refine ⟨once, ?_, ?_, ?_⟩
  · intro v
    simp only [hopDistance_iff]
    constructor
    · intro mem
      obtain ⟨r, among, rfl⟩ := List.mem_map.mp mem
      obtain ⟨e, met, node, -⟩ := level r among
      have other : e.1 ≠ source := fun same => apart (same ▸ node ▸ mem)
      refine ⟨e.2, node ▸ graded.levels e met, ?_, (near e met).resolve_left other⟩
      by_contra zero
      have first := (graded.levels e met).1
      rw [show e.2 = 0 by omega] at first
      exact other (List.mem_singleton.mp first)
    · intro ⟨k, shortest, positive, within⟩
      have met : v ∈ (E ++ P).map Prod.fst := by
        refine graded.met ?_ shortest.1
        intro e among
        have := all e among
        omega
      rw [← holds.nodes] at met
      refine (List.mem_cons.mp met).resolve_left ?_
      rintro rfl
      have := shortest.unique (level_source _ _)
      omega
  · have ordered : ((E ++ P).map entry).Pairwise fun e e' => e.2 ≤ e'.2 := by
      rw [List.pairwise_map]
      exact graded.ordered.imp fun le => Int.ofNat_le.mpr le
    rw [← holds.listed] at ordered
    rw [List.pairwise_cons, List.pairwise_map] at ordered
    exact ordered.2
  · intro r mem
    obtain ⟨k, hops, via, found⟩ := holds.origin r mem
    obtain ⟨e, met, node, hops'⟩ := level r mem
    have own := graded.levels e met
    rw [show e.2 = k + 1 by omega, node] at own
    exact ⟨k, hops, hopDistance_iff.mpr own, hopDistance_iff.mpr via, found⟩

/-- `bfs_neighborhood` returns: the nodes still to expand are too far away. -/
theorem returns (g : DynamicGraph W) (source maxHops : Int) (rel : Bytes) :
    ∃ E P h, Levels (successors g rel) source E P ∧ Holds g rel source h E P ∧
      (∀ e ∈ E ++ P, e.1 = source ∨ (e.2 : Int) ≤ maxHops) ∧ (∀ e ∈ P, maxHops ≤ e.2) ∧
      ∃ N, ∀ fuel, N ≤ fuel → bfsNeighborhood fuel g source maxHops rel = some h.result := by
  have start : Holds g rel source ⟨[], UnorderedMap.set ∅ source 0, [(source, 0)]⟩ []
      [(source, 0)] := by
    refine ⟨rfl, rfl, ?_, by simp⟩
    intro x
    rw [UnorderedMap.find_set]
    by_cases here : x = source
    · simp [here]
    · simp [here]
  exact loop_returns .start start (by simp) _ (Nat.lt_succ_self _)

end Neighborhood

/-- `bfs_neighborhood` returns the neighborhood. -/
theorem bfsNeighborhood_spec {W : Type} (g : DynamicGraph W) (source maxHops : Int) (rel : Bytes) :
    ∃ result N, (∀ fuel, N ≤ fuel → bfsNeighborhood fuel g source maxHops rel = some result) ∧
      Neighbors g rel source maxHops result := by
  obtain ⟨E, P, h, levels, holds, near, all, N, returns⟩ :=
    Neighborhood.returns g source maxHops rel
  exact ⟨h.result, N, returns, holds.neighbors levels near all⟩

end FastGraph
