import FastGraph.Graph.Proofs.Cycles

/-!
# What `dfs_topo_sort` returns

The visited nodes are those whose calls are open and the finished ones, which are in `result` in
the order in which their calls return. Its reverse is a topological order of what the ids reach if
they lead to no cycle. If they do, the result is as long and some edge leads back in it.
-/

namespace FastGraph.TopoSort
open DepthFirst BfsArrays

variable {W : Type} {g : DynamicGraph W} {U : Finset Int} {m m' : Marks} {G D D' : List Int}
  {node : Int} {ids : List Int} {fuel : Nat}

/-- The local variables while the calls for `G` are open and `D` are finished. -/
structure Matches (m : Marks) (G D : List Int) : Prop where
  seen : ∀ x, m.seen x ↔ x ∈ G ∨ x ∈ D
  result : m.result = D

theorem Matches.unseen_iff (fits : Matches m G D) : ¬ m.seen node ↔ node ∉ G ∧ node ∉ D := by
  rw [fits.seen, not_or]

theorem matches_start : Matches ⟨∅, []⟩ [] [] :=
  ⟨fun _ => iff_of_false Bool.false_ne_true (by simp), rfl⟩

theorem seen_set (m : Marks) (node x : Int) :
    Marks.seen { m with visited := m.visited.set node true } x ↔ x = node ∨ m.seen x := by
  unfold Marks.seen
  rw [UnorderedMap.find_set]
  split
  · rename_i same
    exact iff_of_true rfl (Or.inl same)
  · rename_i other
    rw [or_iff_right other]

/-- The call for `node` starts. -/
theorem Matches.enter (fits : Matches m G D) (node : Int) :
    Matches { m with visited := m.visited.set node true } (node :: G) D := by
  refine ⟨fun x => ?_, fits.result⟩
  rw [seen_set, fits.seen, List.mem_cons, or_assoc]

/-- The call for `node` returns. -/
theorem Matches.leave (fits : Matches m (node :: G) D) :
    Matches { m with result := m.result ++ [node] } G (D ++ [node]) := by
  refine ⟨fun x => ?_, by rw [fits.result]⟩
  have seen := fits.seen x
  rw [List.mem_cons] at seen
  rw [List.mem_append, List.mem_singleton]
  exact seen.trans (by tauto)

/-- The nodes that were not visited. -/
def unseen (U : Finset Int) (m : Marks) : Finset Int := U.filter fun x => ¬ m.seen x

theorem card_unseen_le (fits : Matches m G D) (fits' : Matches m' G D') (more : D ⊆ D') :
    (unseen U m').card ≤ (unseen U m).card := by
  refine Finset.card_le_card (Finset.monotone_filter_right U fun x _ notSeen seen => notSeen ?_)
  exact (fits'.seen x).mpr (((fits.seen x).mp seen).imp_right fun mem => more mem)

theorem card_unseen_enter (inside : node ∈ U) (white : ¬ m.seen node) :
    (unseen U { m with visited := m.visited.set node true }).card < (unseen U m).card := by
  apply Finset.card_lt_card
  rw [Finset.ssubset_iff_of_subset]
  · refine ⟨node, Finset.mem_filter.mpr ⟨inside, white⟩, fun mem => ?_⟩
    exact (Finset.mem_filter.mp mem).2 ((seen_set m node node).mpr (Or.inl rfl))
  · refine Finset.monotone_filter_right U fun x _ notSeen seen => notSeen ?_
    exact (seen_set m node x).mpr (Or.inr seen)

/-- The loop makes the calls of a search if each of its calls does. -/
theorem visitEach_finishes {succ : Int → List Int} {visit : Marks → Int → Option Marks} {n : Nat}
    (visits : ∀ {m D node}, Matches m G D → node ∈ U → ¬ m.seen node → (unseen U m).card ≤ n →
      ∃ m' D', visit m node = some m' ∧ Finishes succ True (node :: G) D (succ node) D' ∧
        Matches m' G (D' ++ [node]))
    (fits : Matches m G D) (inside : ∀ id ∈ ids, id ∈ U) (few : (unseen U m).card ≤ n) :
    ∃ m' D', visitEach visit ids m = some m' ∧ Finishes succ True G D ids D' ∧ Matches m' G D' := by
  induction ids generalizing m D with
  | nil => exact ⟨m, D, rfl, .done, fits⟩
  | cons id ids ih =>
    have rest := fun x later => inside x (List.mem_cons_of_mem id later)
    rw [visitEach]
    split
    · rename_i seen
      obtain ⟨m', D', run, finishes, fits'⟩ := ih fits rest few
      have known := (fits.seen id).mp seen
      exact ⟨m', D', run, .old (known.symm.imp_right fun gray => ⟨trivial, gray⟩) finishes, fits'⟩
    · rename_i white
      obtain ⟨m₁, D₁, called, finishes₁, fits₁⟩ :=
        visits fits (inside id List.mem_cons_self) white few
      have more : D ⊆ D₁ ++ [id] := fun u mem => List.mem_append_left _ (finishes₁.subset mem)
      have fewer := card_unseen_le (U := U) fits fits₁ more
      obtain ⟨m', D', run, finishes, fits'⟩ := ih fits₁ rest (fewer.trans few)
      exact ⟨m', D', by simp [called, run], .new (fits.unseen_iff.mp white) finishes₁ finishes,
        fits'⟩

/-- A call for a node that was not visited is one of a search. It is no deeper than there are such
nodes. -/
theorem visit_finishes (closed : ∀ u, ∀ y ∈ successors g [] u, y ∈ U) (fits : Matches m G D)
    (inside : node ∈ U) (white : ¬ m.seen node) (enough : (unseen U m).card ≤ fuel) :
    ∃ m' D', visit g fuel m node = some m' ∧
      Finishes (successors g []) True (node :: G) D (successors g [] node) D' ∧
      Matches m' G (D' ++ [node]) := by
  induction fuel generalizing m G D node with
  | zero =>
    have none := Finset.card_eq_zero.mp (Nat.le_zero.mp enough)
    have mem : node ∈ unseen U m := Finset.mem_filter.mpr ⟨inside, white⟩
    rw [none] at mem
    cases mem
  | succ fuel ih =>
    have fewer := card_unseen_enter inside white
    have few : (unseen U { m with visited := m.visited.set node true }).card ≤ fuel := by omega
    obtain ⟨m', D', run, finishes, fits'⟩ := visitEach_finishes
      (fun fits inside white few => ih fits inside white few) (fits.enter node) (closed node) few
    rw [successors_nil] at run
    exact ⟨_, D', by simp [visit, run], finishes, fits'.leave⟩

end FastGraph.TopoSort

namespace FastGraph
open DepthFirst BfsArrays TopoSort

variable {W : Type} {g : DynamicGraph W} {nodeIds order : List Int} {id u v : Int}

/-- `dfs_topo_sort` returns the reverse of what a search finishes. -/
theorem dfsTopoSort_finishes (g : DynamicGraph W) (nodeIds : List Int) :
    ∃ N, ∀ fuel, N ≤ fuel → ∃ D, dfsTopoSort fuel g nodeIds = some D.reverse ∧
      Finishes (successors g []) True [] [] nodeIds D := by
  have closed (u y : Int) (next : y ∈ successors g [] u) :
      y ∈ nodeIds.toFinset ∪ Dijkstra.endpoints g 0 := by
    obtain ⟨edge, among, -, rfl⟩ := mem_successors.mp next
    exact Finset.mem_union_right _ (Dijkstra.mem_endpoints among 0)
  refine ⟨(nodeIds.toFinset ∪ Dijkstra.endpoints g 0).card, fun fuel enough => ?_⟩
  obtain ⟨m, D, run, finishes, fits⟩ := visitEach_finishes
    (fun fits inside white few => visit_finishes closed fits inside white few) matches_start
    (fun id among => Finset.mem_union_left _ (List.mem_toFinset.mpr among))
    ((Finset.card_filter_le _ _).trans enough)
  exact ⟨D, by rw [dfsTopoSort, run, Option.map_some, fits.result], finishes⟩

/-- The nodes stand in front of those to which their edges lead. -/
def Topological (g : DynamicGraph W) (order : List Int) : Prop :=
  ∀ u ∈ order, ∀ edge ∈ g.neighbors u, edge.toId ∈ order → [u, edge.toId].Sublist order

/-- A search that finishes what it reaches gives a topological order if it is sorted. -/
theorem topological_reverse_iff {D : List Int}
    (finishes : Finishes (successors g []) True [] [] nodeIds D) :
    Topological g D.reverse ↔ Sorted (successors g []) D := by
  have distinct := (finishes.nodup List.nodup_nil nofun).1
  have closed := finishes.closed (fun u mem => absurd mem List.not_mem_nil)
  rw [sorted_iff distinct]
  constructor
  · intro ordered u mem y next
    have inside := (closed u mem y next).resolve_right List.not_mem_nil
    obtain ⟨edge, among, -, rfl⟩ := mem_successors.mp next
    exact List.reverse_sublist.mp
      (ordered u (List.mem_reverse.mpr mem) edge among (List.mem_reverse.mpr inside))
  · intro behind u mem edge among _
    have next : edge.toId ∈ successors g [] u := mem_successors.mpr ⟨edge, among, rfl, rfl⟩
    exact (behind u (List.mem_reverse.mp mem) _ next).reverse

theorem mem_reverse_iff {D : List Int}
    (finishes : Finishes (successors g []) True [] [] nodeIds D) :
    v ∈ D.reverse ↔ ∃ id ∈ nodeIds, Reaches g [] id v := by
  rw [List.mem_reverse, finishes.mem_iff]
  exact exists_congr fun id => and_congr_right fun _ => reaches_iff.symm

/-- Two ways lead from 1 to 4. -/
def diamond : DynamicGraph Int :=
  DynamicGraph.run [.addEdge 1 2 [] 1, .addEdge 1 3 [] 1, .addEdge 2 4 [] 1, .addEdge 3 4 [] 1] .empty

/-- If the ids lead to no cycle, `dfs_topo_sort` returns what they reach in a topological order. -/
theorem dfsTopoSort_acyclic (acyclic : ∀ id ∈ nodeIds, ¬ LeadsToCycle g id) :
    ∃ N, ∀ fuel, N ≤ fuel → ∃ order, dfsTopoSort fuel g nodeIds = some order ∧ order.Nodup ∧
      (∀ v, v ∈ order ↔ ∃ id ∈ nodeIds, Reaches g [] id v) ∧ Topological g order := by
  obtain ⟨N, returns⟩ := dfsTopoSort_finishes g nodeIds
  refine ⟨N, fun fuel enough => ?_⟩
  obtain ⟨D, run, finishes⟩ := returns fuel enough
  have unmet := finishes.unmet (fun u mem => absurd mem List.not_mem_nil) fun id among cycle =>
    acyclic id among (leadsToCycle_iff.mpr cycle)
  refine ⟨D.reverse, run, ?_, fun v => mem_reverse_iff finishes, ?_⟩
  · exact List.nodup_reverse.mpr (finishes.nodup List.nodup_nil nofun).1
  · exact (topological_reverse_iff finishes).mpr (unmet.sorted sorted_nil)

theorem dfsTopoSort_acyclic_diamond :
    ∃ N, ∀ fuel, N ≤ fuel → ∃ order, dfsTopoSort fuel diamond [2, 1, 2] = some order ∧
      order.Nodup ∧ (∀ v, v ∈ order ↔ ∃ id ∈ [2, 1, 2], Reaches diamond [] id v) ∧
      Topological diamond order := by
  have distinct : ([4, 3, 2, 1] : List Int).Nodup := by decide
  have behind : ∀ u ∈ [4, 3, 2, 1], ∀ y ∈ successors diamond [] u, [y, u].Sublist [4, 3, 2, 1] := by
    decide
  have sorted := (sorted_iff distinct).mpr behind
  refine dfsTopoSort_acyclic fun id among cycle => ?_
  have inside : ∀ id ∈ ([2, 1, 2] : List Int), id ∈ [4, 3, 2, 1] := by decide
  exact sorted.not_reachesCycle (inside id among) (leadsToCycle_iff.mp cycle)

/-- If one of the ids leads to a cycle, `dfs_topo_sort` returns nodes all the same, in an order
against an edge. -/
theorem dfsTopoSort_cyclic (cyclic : ∃ id ∈ nodeIds, LeadsToCycle g id) :
    ∃ N, ∀ fuel, N ≤ fuel → ∃ order, dfsTopoSort fuel g nodeIds = some order ∧ order ≠ [] ∧
      ¬ Topological g order := by
  obtain ⟨N, returns⟩ := dfsTopoSort_finishes g nodeIds
  refine ⟨N, fun fuel enough => ?_⟩
  obtain ⟨D, run, finishes⟩ := returns fuel enough
  obtain ⟨id, among, cycle⟩ := cyclic
  have inside : id ∈ D := finishes.mem_iff.mpr ⟨id, among, .refl⟩
  refine ⟨D.reverse, run, ?_, fun ordered => ?_⟩
  · exact List.ne_nil_of_mem (List.mem_reverse.mpr inside)
  · have sorted := (topological_reverse_iff finishes).mp ordered
    exact sorted.not_reachesCycle inside (leadsToCycle_iff.mp cycle)

/-- A node with an edge to itself. -/
def selfLoop : DynamicGraph Int := DynamicGraph.run [.addNode 1 none [], .addEdge 1 1 [] 1] .empty

theorem leadsToCycle_selfLoop : LeadsToCycle selfLoop 1 := by
  have among : ⟨1, [], 1⟩ ∈ selfLoop.neighbors 1 := by decide
  exact ⟨1, ⟨_, _, .start⟩, _, _, Path.start.step among rfl, by simp⟩

theorem dfsTopoSort_selfLoop : LeadsToCycle selfLoop 1 ∧ dfsTopoSort 2 selfLoop [1] = some [1] :=
  ⟨leadsToCycle_selfLoop, by decide⟩

theorem dfsTopoSort_cyclic_selfLoop :
    ∃ N, ∀ fuel, N ≤ fuel → ∃ order, dfsTopoSort fuel selfLoop [1] = some order ∧ order ≠ [] ∧
      ¬ Topological selfLoop order :=
  dfsTopoSort_cyclic ⟨1, List.mem_singleton_self 1, leadsToCycle_selfLoop⟩

end FastGraph
