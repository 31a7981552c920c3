import FastGraph.Graph.Dijkstra
import FastGraph.Graph.Proofs.Bfs
import FastGraph.Misc.ShortestPaths

/-!
# When the searches for weighted paths end

`dijkstra_path` and `dijkstra_all` follow up smaller labels whenever they appear, with
weights of either sign. They end for all targets exactly if no cycle of a negative weight can
be reached from the source.
-/

namespace FastGraph.Dijkstra
open ShortestPaths BfsArrays

section
variable {W : Type} [LT W] [DecidableLT W]

theorem improves_eq (d : Option W) (nc : W) : improves d nc = decide (Worse d nc) := by
  cases d with
  | none => simp [improves, Worse]
  | some d => simp [improves, Worse]

theorem outdated_eq (d : Option W) (c : W) : outdated d c = decide (Stale d c) := by
  cases d with
  | none => simp [outdated, Stale]
  | some d => simp [outdated, Stale]

theorem find_set_eq_update {V : Type} (m : UnorderedMap Int V) (k : Int) (v : V) :
    (m.set k v).find = Function.update m.find k (some v) := by
  funext k'
  rw [UnorderedMap.find_set, Function.update_apply]

end

section
variable {W : Type} [Add W] [LT W] [DecidableLT W] {g : DynamicGraph W} {rel : Bytes}
  {cost : W} {node source target : Int}

/-- The state of a search without its representation. -/
def Labels.state (l : Labels W) : State Int W := ⟨l.dist.find, l.parent.find, l.pq⟩

/-- An edge as an arc. -/
def arc (e : Edge W) : Int × W := (e.toId, e.weight)

/-- The arcs of a node that the relation filter lets through. -/
def arrows (g : DynamicGraph W) (rel : Bytes) (v : Int) : List (Int × W) :=
  ((g.neighbors v).filter (passes rel)).map arc

omit [Add W] [LT W] [DecidableLT W] in
theorem arrows_nil (g : DynamicGraph W) (u : Int) : arrows g [] u = (g.neighbors u).map arc := by
  rw [arrows, filter_passes_nil]

/-- One edge improves the state or is left out. -/
theorem state_relax (l : Labels W) (e : Edge W) :
    ((relax cost node l e).getD l).state = improve cost node l.state (arc e) := by
  unfold relax
  rw [improves_eq]
  by_cases worse : Worse (l.dist.find e.toId) (cost + e.weight)
  · have state_worse : Worse (l.state.dist (arc e).1) (cost + (arc e).2) := worse
    rw [if_pos (decide_eq_true worse), ShortestPaths.improve, if_pos state_worse]
    simp only [Labels.state, arc, Option.getD_some, find_set_eq_update]
  · have kept : ¬ Worse (l.state.dist (arc e).1) (cost + (arc e).2) := worse
    rw [if_neg (by simpa using worse), ShortestPaths.improve, if_neg kept]
    rfl

theorem state_relaxAll (l : Labels W) (edges : List (Edge W)) :
    (edges.foldl (relaxAll cost node) l).state = expand cost node l.state (edges.map arc) := by
  induction edges generalizing l with
  | nil => rfl
  | cons e edges ih =>
    rw [List.foldl_cons, ih, relaxAll, state_relax]
    rfl

/-- The edge loop of `dijkstra_path` does to the labels what that of `dijkstra_all` does. -/
theorem relaxPath_labels (l : PathLabels W) (e : Edge W) :
    (relaxPath rel cost node l e).toLabels =
      if passes rel e then relaxAll cost node l.toLabels e else l.toLabels := by
  unfold relaxPath relaxAll passes
  by_cases matching : rel = [] ∨ e.relType = rel
  · rw [if_neg (by grind), if_pos (decide_eq_true matching)]
    cases relax cost node l.toLabels e with
    | none => rfl
    | some l' => rfl
  · rw [if_pos (not_or.mp matching), if_neg (by simpa using matching)]

theorem state_relaxPath (l : PathLabels W) (edges : List (Edge W)) :
    (edges.foldl (relaxPath rel cost node) l).state =
      expand cost node l.state ((edges.filter (passes rel)).map arc) := by
  induction edges generalizing l with
  | nil => rfl
  | cons e edges ih =>
    rw [List.foldl_cons, ih, relaxPath_labels]
    by_cases matching : passes rel e
    · rw [if_pos matching, List.filter_cons_of_pos matching, List.map_cons, relaxAll, state_relax]
      rfl
    · rw [if_neg matching, List.filter_cons_of_neg matching]

/-! ### The loops -/

variable [Zero W]

/-- One iteration of `dijkstra_all`. -/
theorem allLoop_step {l : Labels W} {pq : List (W × Int)}
    (popped : PriorityQueue.pop l.pq = some ((cost, node), pq))
    (labelled : ∃ d, l.dist.find node = some d) :
    ∃ l' : Labels W, l'.state = settle (arrows g []) cost node pq l.state ∧
      ∀ fuel, allLoop g (fuel + 1) l = allLoop g fuel l' := by
  obtain ⟨d, label⟩ := labelled
  have kept : (if (l.dist.find node).isNone then l.dist.set node 0 else l.dist) = l.dist := by
    rw [label]
    rfl
  by_cases stale : Stale (l.dist.find node) cost
  · refine ⟨{ l with pq := pq }, ?_, ?_⟩
    · rw [settle, if_pos (show Stale (l.state.dist node) cost from stale)]
      rfl
    · intro fuel
      rw [allLoop, popped]
      simp only [kept, outdated_eq, decide_eq_true stale, if_true]
  · refine ⟨(g.neighbors node).foldl (relaxAll cost node) { l with pq := pq }, ?_, ?_⟩
    · rw [settle, if_neg (show ¬ Stale (l.state.dist node) cost from stale), state_relaxAll, arrows_nil]
      rfl
    · intro fuel
      rw [allLoop, popped]
      simp only [kept, outdated_eq, decide_eq_false stale, Bool.false_eq_true, if_false]

/-- What is left of the variables after an iteration of `dijkstra_path` at a node that is not the
target. -/
def afterNode (g : DynamicGraph W) (rel : Bytes) (cost : W) (node : Int) (pq : List (W × Int))
    (l : PathLabels W) : PathLabels W :=
  if outdated (l.dist.find node) cost then { l with pq := pq }
  else (g.neighbors node).foldl (relaxPath rel cost node) { l with pq := pq }

omit [Zero W] in
theorem state_afterNode (rel : Bytes) (l : PathLabels W) (pq : List (W × Int)) :
    (afterNode g rel cost node pq l).state = settle (arrows g rel) cost node pq l.state := by
  rw [afterNode, outdated_eq]
  by_cases stale : Stale (l.dist.find node) cost
  · rw [settle, if_pos (show Stale (l.state.dist node) cost from stale), if_pos (decide_eq_true stale)]
    rfl
  · rw [settle, if_neg (show ¬ Stale (l.state.dist node) cost from stale),
      if_neg (by simpa using stale), state_relaxPath]
    rfl

theorem pathLoop_succ (rel : Bytes) {l : PathLabels W} {pq : List (W × Int)}
    (popped : PriorityQueue.pop l.pq = some ((cost, node), pq)) (other : node ≠ target) (fuel : Nat) :
    pathLoop g rel target (fuel + 1) l =
      pathLoop g rel target fuel (afterNode g rel cost node pq l) := by
  rw [pathLoop, popped, afterNode]
  simp only [if_neg other]
  split <;> rfl

/-- Iterations of `dijkstra_path` at nodes that are not the target. -/
inductive Follows (g : DynamicGraph W) (rel : Bytes) (target : Int) :
    PathLabels W → PathLabels W → Prop where
  | refl {l : PathLabels W} : Follows g rel target l l
  | step {l l' : PathLabels W} {cost : W} {node : Int} {pq : List (W × Int)}
      (popped : PriorityQueue.pop l.pq = some ((cost, node), pq)) (other : node ≠ target)
      (rest : Follows g rel target (afterNode g rel cost node pq l) l') : Follows g rel target l l'

omit [Zero W] in
/-- What each iteration keeps holds after all of them. -/
theorem Follows.keeps {P : PathLabels W → Prop} {l l' : PathLabels W}
    (follows : Follows g rel target l l')
    (kept : ∀ {l : PathLabels W} {cost : W} {node : Int} {pq : List (W × Int)},
      PriorityQueue.pop l.pq = some ((cost, node), pq) → node ≠ target → P l →
        P (afterNode g rel cost node pq l)) (holds : P l) : P l' := by
  induction follows with
  | refl => exact holds
  | step popped other rest ih => exact ih (kept popped other holds)

/-- `dijkstra_path` returns when the queue is empty, or by the walk back from the target. -/
theorem pathLoop_ends {fuel : Nat} {l : PathLabels W} {path : WeightedPath W}
    (returned : pathLoop g rel target fuel l = some path) :
    ∃ l', Follows g rel target l l' ∧ (PriorityQueue.pop l'.pq = none ∧ path = ⟨[], [], 0⟩ ∨
      ∃ cost pq fuel' back, PriorityQueue.pop l'.pq = some ((cost, target), pq) ∧
        walkBack l'.parent l'.viaRel fuel' target = some back ∧
        path = ⟨back.1.reverse, back.2.reverse, cost⟩) := by
  induction fuel generalizing l with
  | zero => cases returned
  | succ fuel ih =>
    cases popped : PriorityQueue.pop l.pq with
    | none =>
      rw [pathLoop, popped, Option.some_inj] at returned
      exact ⟨l, .refl, Or.inl ⟨popped, returned.symm⟩⟩
    | some top =>
      obtain ⟨⟨cost, node⟩, pq⟩ := top
      by_cases reached : node = target
      · subst reached
        rw [pathLoop, popped] at returned
        simp only [if_true] at returned
        obtain ⟨back, walked, same⟩ := Option.map_eq_some_iff.mp returned
        exact ⟨l, .refl, Or.inr ⟨cost, pq, fuel, back, popped, walked, same.symm⟩⟩
      · rw [pathLoop_succ rel popped reached] at returned
        obtain ⟨l', follows, ends⟩ := ih returned
        exact ⟨l', .step popped reached follows, ends⟩

/-- One iteration of `dijkstra_path` at a node that is not the target. -/
theorem pathLoop_step (rel : Bytes) {l : PathLabels W} {pq : List (W × Int)}
    (popped : PriorityQueue.pop l.pq = some ((cost, node), pq)) (other : node ≠ target) :
    ∃ l' : PathLabels W, l'.state = settle (arrows g rel) cost node pq l.state ∧
      ∀ fuel, pathLoop g rel target (fuel + 1) l = pathLoop g rel target fuel l' :=
  ⟨_, state_afterNode rel l pq, pathLoop_succ rel popped other⟩

/-- The walk back ends where the predecessors lead to the mark. -/
theorem walkBack_returns {parent : UnorderedMap Int Int} (viaRel : UnorderedMap Int Bytes)
    {cur : Int} (leads : Leads (-1) parent.find cur) :
    ∃ N, ∀ fuel, N ≤ fuel → ∃ path, walkBack parent viaRel fuel cur = some path := by
  induction leads with
  | done =>
    refine ⟨1, ?_⟩
    intro fuel enough
    obtain ⟨fuel, rfl⟩ := Nat.exists_eq_add_of_le' enough
    exact ⟨([], []), by rw [walkBack, if_pos rfl]⟩
  | @next cur p here leads ih =>
    obtain ⟨N, returns⟩ := ih
    refine ⟨N + 1, ?_⟩
    intro fuel enough
    obtain ⟨fuel, rfl⟩ := Nat.exists_eq_add_of_le' (Nat.le_of_add_left_le enough)
    obtain ⟨path, rest⟩ := returns fuel (by omega)
    rw [walkBack]
    split
    · exact ⟨_, rfl⟩
    · simp only [here, Option.getD_some, rest]
      exact ⟨_, rfl⟩

omit [Add W] [LT W] [DecidableLT W] in
/-- Both functions begin as the search does. -/
theorem state_start (source : Int) :
    (start source : Labels W).state = (initial source (-1) : State Int W) := by
  have update : ∀ {V : Type} (v : V), (UnorderedMap.set (∅ : UnorderedMap Int V) source v).find =
      fun k => if k = source then some v else none := by
    intro V v
    funext k
    rw [UnorderedMap.find_set]
    rfl
  simp only [Labels.state, start, initial, update]

/-- `dijkstra_all` ends if each iteration keeps what labels the queued nodes and lowers a bound. -/
theorem allLoop_ends_of {P : State Int W → Prop} (bound : State Int W → Nat)
    (labelled : ∀ {st c v}, P st → (c, v) ∈ st.queue → ∃ d, st.dist v = some d)
    (settles : ∀ {st c v rest}, P st → st.queue.Perm ((c, v) :: rest) →
      P (settle (arrows g []) c v rest st) ∧ bound (settle (arrows g []) c v rest st) < bound st)
    {l : Labels W} (holds : P l.state) : ∃ N, ∀ fuel, N ≤ fuel → ∃ d, allLoop g fuel l = some d := by
  induction size : bound l.state using Nat.strong_induction_on generalizing l with
  | _ n ih =>
    cases popped : PriorityQueue.pop l.pq with
    | none =>
      refine ⟨1, fun fuel enough => ?_⟩
      obtain ⟨fuel, rfl⟩ := Nat.exists_eq_add_of_le' enough
      exact ⟨_, by rw [allLoop, popped]⟩
    | some top =>
      obtain ⟨⟨cost, node⟩, pq⟩ := top
      have next := PriorityQueue.pop_perm popped
      obtain ⟨l', state, step⟩ :=
        allLoop_step popped (labelled holds (next.mem_iff.mpr List.mem_cons_self))
      obtain ⟨after, less⟩ := settles holds next
      rw [← state] at after less
      obtain ⟨N, returns⟩ := ih _ (size ▸ less) after rfl
      refine ⟨N + 1, fun fuel enough => ?_⟩
      obtain ⟨fuel, rfl⟩ := Nat.exists_eq_add_of_le' (Nat.le_of_add_left_le enough)
      rw [step]
      exact returns fuel (by omega)

/-- So does `dijkstra_path`, if the predecessors of the target lead to the mark too. -/
theorem pathLoop_ends_of {P : State Int W → Prop} (bound : State Int W → Nat)
    (labelled : ∀ {st c v}, P st → (c, v) ∈ st.queue → ∃ d, st.dist v = some d)
    (settles : ∀ {st c v rest}, v ≠ target → P st → st.queue.Perm ((c, v) :: rest) →
      P (settle (arrows g rel) c v rest st) ∧ bound (settle (arrows g rel) c v rest st) < bound st)
    (leads : ∀ {st d}, P st → st.dist target = some d → Leads (-1) st.parent target)
    {l : PathLabels W} (holds : P l.state) :
    ∃ N, ∀ fuel, N ≤ fuel → ∃ path, pathLoop g rel target fuel l = some path := by
  induction size : bound l.state using Nat.strong_induction_on generalizing l with
  | _ n ih =>
    cases popped : PriorityQueue.pop l.pq with
    | none =>
      refine ⟨1, fun fuel enough => ?_⟩
      obtain ⟨fuel, rfl⟩ := Nat.exists_eq_add_of_le' enough
      exact ⟨_, by rw [pathLoop, popped]⟩
    | some top =>
      obtain ⟨⟨cost, node⟩, pq⟩ := top
      have next := PriorityQueue.pop_perm popped
      by_cases reached : node = target
      · subst reached
        obtain ⟨d, label⟩ := labelled holds (next.mem_iff.mpr List.mem_cons_self)
        obtain ⟨N, returns⟩ := walkBack_returns l.viaRel (leads holds label)
        refine ⟨N + 1, fun fuel enough => ?_⟩
        obtain ⟨fuel, rfl⟩ := Nat.exists_eq_add_of_le' (Nat.le_of_add_left_le enough)
        obtain ⟨path, walked⟩ := returns fuel (by omega)
        rw [pathLoop, popped]
        simp only [if_true, walked, Option.map_some]
        exact ⟨_, rfl⟩
      · obtain ⟨l', state, step⟩ := pathLoop_step (g := g) rel popped reached
        obtain ⟨after, less⟩ := settles reached holds next
        rw [← state] at after less
        obtain ⟨N, returns⟩ := ih _ (size ▸ less) after rfl
        refine ⟨N + 1, fun fuel enough => ?_⟩
        obtain ⟨fuel, rfl⟩ := Nat.exists_eq_add_of_le' (Nat.le_of_add_left_le enough)
        rw [step]
        exact returns fuel (by omega)

/-- The source and the ends of all edges. -/
def endpoints (g : DynamicGraph W) (source : Int) : Finset Int :=
  insert source ((g.adj.toList.flatMap fun r => r.2.map (·.toId))).toFinset

omit [Zero W] [Add W] [LT W] [DecidableLT W] in
theorem mem_endpoints {u : Int} {e : Edge W} (among : e ∈ g.neighbors u) (source : Int) :
    e.toId ∈ endpoints g source := by
  have edge : e ∈ (g.adj.find u).getD [] := among
  cases found : g.adj.find u with
  | none =>
    rw [found] at edge
    cases edge
  | some es =>
    rw [found] at edge
    have row := UnorderedMap.mem_toList.mpr found
    apply Finset.mem_insert_of_mem
    exact List.mem_toFinset.mpr (List.mem_flatMap.mpr ⟨_, row, List.mem_map_of_mem edge⟩)

omit [Zero W] [Add W] [LT W] [DecidableLT W] in
theorem closed_endpoints (g : DynamicGraph W) (rel : Bytes) (source : Int) :
    Closed (arrows g rel) source (endpoints g source) where
  source := Finset.mem_insert_self _ _
  arcs := by
    intro v _ a mem
    obtain ⟨e, passing, rfl⟩ := List.mem_map.mp mem
    exact mem_endpoints (List.mem_filter.mp passing).1 source

end

section
variable {W : Type} [AddCommGroup W] [LinearOrder W] {g : DynamicGraph W} {rel : Bytes}
  {cost : W} {node source target : Int}

theorem arrows_nonneg (rel : Bytes) (nonneg : ∀ u, ∀ edge ∈ g.neighbors u, 0 ≤ edge.weight) :
    ∀ u, ∀ a ∈ arrows g rel u, 0 ≤ a.2 := by
  intro u a mem
  obtain ⟨edge, passing, rfl⟩ := List.mem_map.mp mem
  exact nonneg u edge (List.mem_filter.mp passing).1

variable [IsOrderedAddMonoid W]

/-- Without negative cycles `dijkstra_all` empties its queue. -/
theorem allLoop_returns (cycles : NoNegativeCycle (arrows g []) source) {l : Labels W}
    (sound : Sound (arrows g []) source (-1) l.state) :
    ∃ N, ∀ fuel, N ≤ fuel → ∃ d, allLoop g fuel l = some d := by
  have closed := closed_endpoints g [] source
  refine allLoop_ends_of (P := Sound (arrows g []) source (-1))
    (budget (costs (arrows g []) source (endpoints g source)) (endpoints g source)) ?_ ?_ sound
  · intro st c v sound mem
    obtain ⟨_, trail⟩ := sound.entries (c, v) mem
    obtain ⟨d, label, -⟩ := trail.label
    exact ⟨d, label⟩
  · exact fun sound next => sound.settle closed cycles next

/-- Without negative cycles `dijkstra_path` empties its queue or walks back from the target. -/
theorem pathLoop_returns (cycles : NoNegativeCycle (arrows g rel) source) (target : Int)
    {l : PathLabels W} (sound : Sound (arrows g rel) source (-1) l.state) :
    ∃ N, ∀ fuel, N ≤ fuel → ∃ path, pathLoop g rel target fuel l = some path := by
  have closed := closed_endpoints g rel source
  refine pathLoop_ends_of (P := Sound (arrows g rel) source (-1))
    (budget (costs (arrows g rel) source (endpoints g source)) (endpoints g source)) ?_ ?_ ?_ sound
  · intro st c v sound mem
    obtain ⟨_, trail⟩ := sound.entries (c, v) mem
    obtain ⟨d, label, -⟩ := trail.label
    exact ⟨d, label⟩
  · exact fun _ sound next => sound.settle closed cycles next
  · exact fun sound label => sound.leads target _ label

theorem dijkstraPath_returns (cycles : NoNegativeCycle (arrows g rel) source) (target : Int) :
    ∃ fuel path, dijkstraPath fuel g source target rel = some path := by
  obtain ⟨N, returns⟩ := pathLoop_returns cycles target
    (l := { start source with viaRel := ∅ }) (by
      rw [state_start]
      exact sound_initial _ source (-1))
  exact ⟨N, returns N le_rfl⟩

theorem dijkstraAll_returns (cycles : NoNegativeCycle (arrows g []) source) :
    ∃ fuel d, dijkstraAll fuel g source = some d := by
  obtain ⟨N, returns⟩ := allLoop_returns cycles (l := start source) (by
    rw [state_start]
    exact sound_initial _ source (-1))
  exact ⟨N, returns N le_rfl⟩

/-- If `dijkstra_all` ends there is no negative cycle. -/
theorem noNegativeCycle_of_allLoop {fuel : Nat} {l : Labels W} {d : DistanceMap W}
    (covered : Covered (arrows g []) source l.state) (returned : allLoop g fuel l = some d) :
    NoNegativeCycle (arrows g []) source := by
  induction fuel generalizing l with
  | zero => cases returned
  | succ fuel ih =>
    cases popped : PriorityQueue.pop l.pq with
    | none => exact covered.noNegativeCycle (PriorityQueue.pop_eq_none popped)
    | some top =>
      obtain ⟨⟨cost, node⟩, pq⟩ := top
      have next := PriorityQueue.pop_perm popped
      obtain ⟨labelled, -⟩ := covered.queued (cost, node) (next.mem_iff.mpr List.mem_cons_self)
      obtain ⟨l', state, step⟩ := allLoop_step popped labelled
      have after := covered.settle next
      rw [← state] at after
      rw [step] at returned
      exact ih after returned

/-- If `dijkstra_path` ends for a target that no edges lead to there is no negative cycle. -/
theorem noNegativeCycle_of_pathLoop {fuel : Nat} {l : PathLabels W} {path : WeightedPath W}
    (apart : ∀ c, ¬ Walk (arrows g rel) source target c)
    (covered : Covered (arrows g rel) source l.state)
    (returned : pathLoop g rel target fuel l = some path) :
    NoNegativeCycle (arrows g rel) source := by
  induction fuel generalizing l with
  | zero => cases returned
  | succ fuel ih =>
    cases popped : PriorityQueue.pop l.pq with
    | none => exact covered.noNegativeCycle (PriorityQueue.pop_eq_none popped)
    | some top =>
      obtain ⟨⟨cost, node⟩, pq⟩ := top
      have next := PriorityQueue.pop_perm popped
      obtain ⟨-, c, walk⟩ := covered.queued (cost, node) (next.mem_iff.mpr List.mem_cons_self)
      have other : node ≠ target := by
        intro same
        exact apart c (same ▸ walk)
      obtain ⟨l', state, step⟩ := pathLoop_step (g := g) rel popped other
      have after := covered.settle next
      rw [← state] at after
      rw [step] at returned
      exact ih after returned

/-- `dijkstra_path` ends for every target, and `dijkstra_all` ends, exactly if no cycle of
edges that the search may follow has a negative weight and can be reached from the source. -/
theorem dijkstra_terminates_iff (g : DynamicGraph W) (source : Int) :
    (∀ rel, (∀ target, ∃ fuel path, dijkstraPath fuel g source target rel = some path) ↔
      NoNegativeCycle (arrows g rel) source) ∧
    ((∃ fuel d, dijkstraAll fuel g source = some d) ↔ NoNegativeCycle (arrows g []) source) := by
  refine ⟨fun rel => ⟨?_, dijkstraPath_returns⟩, ?_, dijkstraAll_returns⟩
  · intro returns
    obtain ⟨target, outside⟩ := Infinite.exists_notMem_finset (endpoints g source)
    obtain ⟨fuel, path, returned⟩ := returns target
    refine noNegativeCycle_of_pathLoop ?_ ?_ returned
    · intro c walk
      exact outside ((closed_endpoints g rel source).walk walk)
    · rw [state_start]
      exact covered_initial _ source (-1)
  · intro ⟨fuel, d, returned⟩
    refine noNegativeCycle_of_allLoop ?_ returned
    rw [state_start]
    exact covered_initial _ source (-1)

end

/-! ### Two graphs -/

/-- A graph of one edge. -/
def oneEdge (fromId toId : Int) (weight : ℚ) : DynamicGraph ℚ :=
  DynamicGraph.run [.addEdge fromId toId [114] weight] .empty

theorem mem_arrows_oneEdge {fromId toId v : Int} {weight : ℚ} {a : Int × ℚ} :
    a ∈ arrows (oneEdge fromId toId weight) [] v ↔ v = fromId ∧ a = (toId, weight) := by
  have edges : (oneEdge fromId toId weight).neighbors v =
      if v = fromId then [⟨toId, [114], weight⟩] else [] := by
    change Adjacency.row (UnorderedMap.set ∅ fromId _) v = _
    rw [Adjacency.row_set]
    rfl
  unfold arrows
  rw [edges]
  split
  · simp_all [passes, arc]
  · simp_all

/-- A walk over the edge of a graph of one edge that is no loop. -/
theorem walk_oneEdge {u v : Int} {c : ℚ} (walk : Walk (arrows (oneEdge 1 2 (-1)) []) u v c) :
    (v = u ∧ c = 0) ∨ (u = 1 ∧ v = 2 ∧ c = -1) := by
  induction walk with
  | nil => exact Or.inl ⟨rfl, rfl⟩
  | snoc walk arc ih =>
    obtain ⟨from1, to2⟩ := mem_arrows_oneEdge.mp arc
    cases to2
    rcases ih with ⟨same, zero⟩ | ⟨-, at2, -⟩
    · exact Or.inr ⟨same.symm.trans from1, rfl, by rw [zero, zero_add]⟩
    · omega

theorem dijkstra_terminates_iff_oneEdge :
    (∀ target, ∃ fuel path, dijkstraPath fuel (oneEdge 1 2 (-1)) 1 target [] = some path) ∧
      ∃ fuel d, dijkstraAll fuel (oneEdge 1 2 (-1)) 1 = some d := by
  have cycles : NoNegativeCycle (arrows (oneEdge 1 2 (-1)) []) 1 := by
    intro v c c' _ cycle
    rcases walk_oneEdge cycle with ⟨-, zero⟩ | ⟨at1, at2, -⟩
    · exact zero.ge
    · omega
  obtain ⟨path, all⟩ := dijkstra_terminates_iff (oneEdge 1 2 (-1)) 1
  exact ⟨(path []).mpr cycles, all.mpr cycles⟩

/-! ### A loop at the source -/

section
variable {W : Type} [Zero W] [Add W] [LT W] [DecidableLT W] {w v : W}

/-- A loop at 1 and an edge from 1 to 2. -/
def loopAndEdge (w v : W) : DynamicGraph W :=
  DynamicGraph.run [.addEdge 1 1 [114] w, .addEdge 1 2 [114] v] .empty

omit [Zero W] [Add W] [LT W] [DecidableLT W] in
theorem neighbors_loopAndEdge (w v : W) (u : Int) : (loopAndEdge w v).neighbors u =
    if u = 1 then [⟨1, [114], w⟩, ⟨2, [114], v⟩] else [] := by
  change Adjacency.row (UnorderedMap.set (UnorderedMap.set ∅ 1 _) 1 _) u = _
  rw [Adjacency.row_set]
  split
  · rfl
  · rename_i other
    rw [Adjacency.row_set, if_neg other]
    rfl

/-- 1 is its own predecessor and that of 2, which is still to be followed up. -/
structure Looped (l : PathLabels W) : Prop where
  loop : l.parent.find 1 = some 1
  edge : l.parent.find 2 = some 1
  queued : ∃ c, (c, 2) ∈ l.pq

omit [Zero W] in
theorem Looped.relaxPath {l : PathLabels W} (looped : Looped l) (cost : W) (e : Edge W) :
    Looped (relaxPath [] cost 1 l e) := by
  obtain ⟨loop, edge, c, queued⟩ := looped
  rw [Dijkstra.relaxPath, if_neg (by simp), relax]
  by_cases better : improves (l.dist.find e.toId) (cost + e.weight) = true
  · rw [if_pos better]
    refine ⟨?_, ?_, c, List.mem_cons_of_mem _ queued⟩
    · rw [UnorderedMap.find_set, loop, ite_self]
    · rw [UnorderedMap.find_set, edge, ite_self]
  · rw [if_neg better]
    exact ⟨loop, edge, c, queued⟩

theorem walkBack_loop {parent : UnorderedMap Int Int} (loop : parent.find 1 = some 1)
    (viaRel : UnorderedMap Int Bytes) (fuel : Nat) : walkBack parent viaRel fuel 1 = none := by
  induction fuel with
  | zero => rfl
  | succ fuel ih =>
    rw [walkBack, if_neg (by decide), loop]
    simp only [Option.getD_some, ih, Option.map_none]

theorem Looped.pathLoop {l : PathLabels W} (looped : Looped l) (fuel : Nat) :
    pathLoop (loopAndEdge w v) [] 2 fuel l = none := by
  induction fuel generalizing l with
  | zero => rfl
  | succ fuel ih =>
    obtain ⟨c, queued⟩ := looped.queued
    cases popped : PriorityQueue.pop l.pq with
    | none =>
      rw [PriorityQueue.pop_eq_none popped] at queued
      cases queued
    | some top =>
      obtain ⟨⟨cost, node⟩, pq⟩ := top
      have next := PriorityQueue.pop_perm popped
      rw [Dijkstra.pathLoop, popped]
      by_cases reached : node = 2
      · subst reached
        -- the predecessors lead from 2 to 1 and from there to 1
        have back : walkBack l.parent l.viaRel fuel 2 = none := by
          cases fuel with
          | zero => rfl
          | succ fuel =>
            rw [walkBack, if_neg (by decide), looped.edge]
            simp only [Option.getD_some, walkBack_loop looped.loop, Option.map_none]
        simp only [if_true, back, Option.map_none]
      · have left : (c, 2) ∈ pq := by
          rcases List.mem_cons.mp (next.mem_iff.mp queued) with same | later
          · exact absurd (congrArg Prod.snd same).symm reached
          · exact later
        have kept : Looped { l with pq := pq } := ⟨looped.loop, looped.edge, c, left⟩
        simp only [if_neg reached]
        split
        · exact ih kept
        · apply ih
          rw [neighbors_loopAndEdge]
          split
          · rename_i from1
            subst from1
            exact (kept.relaxPath cost _).relaxPath cost _
          · exact kept

/-- Where the loop lowers the label of its node, `dijkstra_path` does not return: with exact weights
the loop is followed for ever, and if the labels get stuck the predecessors lead from 1 to 1. -/
theorem dijkstraPath_loopAndEdge (irrefl : ¬ (0 : W) < 0) (falls : 0 + w < 0) (fuel : Nat) :
    dijkstraPath fuel (loopAndEdge w v) 1 2 [] = none := by
  cases fuel with
  | zero => rfl
  | succ fuel =>
    have popped : PriorityQueue.pop [((0 : W), (1 : Int))] = some ((0, 1), []) := rfl
    rw [dijkstraPath, pathLoop]
    simp only [start, popped, UnorderedMap.find_set_self, outdated, irrefl, decide_false,
      Bool.false_eq_true, if_false, neighbors_loopAndEdge, if_true, List.foldl_cons, List.foldl_nil]
    apply Looped.pathLoop
    refine ⟨?_, ?_, 0 + v, ?_⟩ <;>
      simp [relaxPath, relax, improves, falls, UnorderedMap.find_set]

end

/-- With a loop of weight −1 at its source a search does not end. -/
theorem dijkstra_selfLoop :
    (∀ fuel path, dijkstraPath fuel (loopAndEdge (-1 : ℚ) 1) 1 2 [] ≠ some path) ∧
      ∀ fuel d, dijkstraAll fuel (loopAndEdge (-1 : ℚ) 1) 1 ≠ some d := by
  constructor
  · intro fuel path returned
    rw [dijkstraPath_loopAndEdge (lt_irrefl 0) (by norm_num)] at returned
    cases returned
  · intro fuel d returned
    have cycles : NoNegativeCycle (arrows (loopAndEdge (-1 : ℚ) 1) []) 1 := by
      refine noNegativeCycle_of_allLoop ?_ returned
      rw [state_start]
      exact covered_initial _ 1 (-1)
    have loop : ((1 : Int), (-1 : ℚ)) ∈ arrows (loopAndEdge (-1 : ℚ) 1) [] 1 := by
      simp [arrows_nil, neighbors_loopAndEdge, arc]
    have nonneg := cycles 1 0 (-1) .nil (Walk.single loop)
    norm_num at nonneg

end FastGraph.Dijkstra
