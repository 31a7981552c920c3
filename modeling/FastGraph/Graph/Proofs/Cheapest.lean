import FastGraph.Graph.Proofs.Copies
import FastGraph.Graph.Proofs.Paths
import FastGraph.Graph.Proofs.Distances

/-!
# Cheapest paths

Without negative weights `dijkstra_path` returns a path of the least weight with the relations of
its edges, and `dijkstra_all` the least weights and the nodes before the last on such paths. Three
maps are written together, so that the relation stored for a node is that of the edge which gave
it its label.
-/

namespace FastGraph.Dijkstra
open ShortestPaths BfsArrays

section
variable {W : Type} [AddCommGroup W] [LinearOrder W] {g : DynamicGraph W} {rel : Bytes}
  {source target node : Int} {cost : W}

/-! ### More iterations -/

theorem walkBack_mono {parent : UnorderedMap Int Int} {viaRel : UnorderedMap Int Bytes}
    {fuel fuel' : Nat} {cur : Int} {path : List Int × List Bytes} (more : fuel ≤ fuel')
    (walked : walkBack parent viaRel fuel cur = some path) :
    walkBack parent viaRel fuel' cur = some path := by
  induction fuel generalizing fuel' cur path with
  | zero => cases walked
  | succ fuel ih =>
    obtain ⟨fuel', rfl⟩ := Nat.exists_eq_add_of_le' (Nat.le_of_add_left_le more)
    rw [walkBack] at walked ⊢
    split at walked
    · rename_i stop
      rw [if_pos stop]
      exact walked
    · rename_i inner
      rw [if_neg inner]
      obtain ⟨rest, before, same⟩ := Option.map_eq_some_iff.mp walked
      exact Option.map_eq_some_iff.mpr ⟨rest, ih (by omega) before, same⟩

theorem pathLoop_mono {fuel fuel' : Nat} {l : PathLabels W} {path : WeightedPath W}
    (more : fuel ≤ fuel') (returned : pathLoop g rel target fuel l = some path) :
    pathLoop g rel target fuel' l = some path := by
  induction fuel generalizing fuel' l with
  | zero => cases returned
  | succ fuel ih =>
    obtain ⟨fuel', rfl⟩ := Nat.exists_eq_add_of_le' (Nat.le_of_add_left_le more)
    cases popped : PriorityQueue.pop l.pq with
    | none =>
      rw [pathLoop, popped] at returned ⊢
      exact returned
    | some top =>
      obtain ⟨⟨cost, node⟩, pq⟩ := top
      by_cases reached : node = target
      · rw [pathLoop, popped] at returned ⊢
        simp only [if_pos reached] at returned ⊢
        obtain ⟨path', walked, same⟩ := Option.map_eq_some_iff.mp returned
        exact Option.map_eq_some_iff.mpr ⟨path', walkBack_mono (by omega) walked, same⟩
      · obtain ⟨l', -, step⟩ := pathLoop_step (g := g) rel popped reached
        rw [step] at returned ⊢
        exact ih (by omega) returned

theorem allLoop_mono {fuel fuel' : Nat} {l : Labels W} {d : DistanceMap W} (more : fuel ≤ fuel')
    (returned : allLoop g fuel l = some d) : allLoop g fuel' l = some d := by
  induction fuel generalizing fuel' l with
  | zero => cases returned
  | succ fuel ih =>
    obtain ⟨fuel', rfl⟩ := Nat.exists_eq_add_of_le' (Nat.le_of_add_left_le more)
    rw [allLoop] at returned ⊢
    cases popped : PriorityQueue.pop l.pq with
    | none =>
      rw [popped] at returned
      exact returned
    | some top =>
      rw [popped] at returned
      simp only at returned ⊢
      generalize (if (l.dist.find top.1.2).isNone then l.dist.set top.1.2 0 else l.dist) = dist
        at returned ⊢
      split at returned
      · rename_i old
        rw [if_pos old]
        exact ih (by omega) returned
      · rename_i new
        rw [if_neg new]
        exact ih (by omega) returned

/-! ### The edges behind the labels -/

/-- An edge from `p` to `x` with the relation that is stored for `x`. -/
def StoredEdge (g : DynamicGraph W) (rel : Bytes) (viaRel : UnorderedMap Int Bytes) (p x : Int) (w : W) :
    Prop :=
  ∃ edge ∈ g.neighbors p, passes rel edge ∧ edge.toId = x ∧ edge.weight = w ∧
    viaRel.find x = some edge.relType

/-- The labels, the predecessors and the relations fit. -/
abbrev Fits (g : DynamicGraph W) (rel : Bytes) (source : Int) (l : PathLabels W) : Prop :=
  Recorded (StoredEdge g rel l.viaRel) source (-1) l.state

variable [IsOrderedAddMonoid W]

/-- The label of the node whose edges are followed does not exceed the cost. -/
def Labelled (l : PathLabels W) (node : Int) (cost : W) : Prop :=
  ∃ d, l.state.dist node = some d ∧ d ≤ cost

omit [IsOrderedAddMonoid W] in
theorem Labelled.relaxPath {l : PathLabels W} (label : Labelled l node cost) (edge : Edge W) :
    Labelled (relaxPath rel cost node l edge) node cost := by
  obtain ⟨d, here, le⟩ := label
  have single : (Dijkstra.relaxPath rel cost node l edge).state =
      expand cost node l.state (([edge].filter (passes rel)).map arc) := state_relaxPath l [edge]
  obtain ⟨d', here', less⟩ := improved_expand cost node l.state
    (([edge].filter (passes rel)).map arc) node d here
  exact ⟨d', by rw [single]; exact here', less.trans le⟩

/-- One edge. -/
theorem Fits.relaxPath {l : PathLabels W} (fits : Fits g rel source l) (low : 0 ≤ cost)
    (label : Labelled l node cost) {edge : Edge W} (among : edge ∈ g.neighbors node)
    (nonneg : 0 ≤ edge.weight) : Fits g rel source (relaxPath rel cost node l edge) := by
  by_cases matching : passes rel edge
  · have pass := matching
    rw [passes, decide_eq_true_iff] at pass
    unfold Dijkstra.relaxPath
    rw [if_neg (by tauto)]
    cases relaxed : relax cost node l.toLabels edge with
    | none => exact fits
    | some l' =>
      unfold relax at relaxed
      split at relaxed
      · rename_i improves
        rw [improves_eq, decide_eq_true_iff] at improves
        cases relaxed
        have own : StoredEdge g rel (l.viaRel.set edge.toId edge.relType) node edge.toId edge.weight :=
          ⟨edge, among, matching, rfl, rfl, UnorderedMap.find_set_self _ _ _⟩
        have others : ∀ p y w, y ≠ edge.toId → StoredEdge g rel l.viaRel p y w →
            StoredEdge g rel (l.viaRel.set edge.toId edge.relType) p y w := by
          rintro p y w other ⟨e, mem, pass', rfl, rfl, stored⟩
          refine ⟨e, mem, pass', rfl, rfl, ?_⟩
          rw [UnorderedMap.find_set, if_neg other, stored]
        have updated := fits.update low nonneg label improves own others
          ((cost + edge.weight, edge.toId) :: l.pq)
        simpa only [Fits, Labels.state, find_set_eq_update] using updated
      · cases relaxed
  · have kept : Dijkstra.relaxPath rel cost node l edge = l := by
      rw [passes, decide_eq_true_iff, not_or] at matching
      rw [Dijkstra.relaxPath, if_pos matching]
    rw [kept]
    exact fits

theorem Fits.relaxAll {l : PathLabels W} (fits : Fits g rel source l) (low : 0 ≤ cost)
    (label : Labelled l node cost) {edges : List (Edge W)}
    (among : ∀ edge ∈ edges, edge ∈ g.neighbors node ∧ 0 ≤ edge.weight) :
    Fits g rel source (edges.foldl (Dijkstra.relaxPath rel cost node) l) := by
  induction edges generalizing l with
  | nil => exact fits
  | cons edge edges ih =>
    obtain ⟨mem, nonneg⟩ := among edge List.mem_cons_self
    exact ih (fits.relaxPath low label mem nonneg) (label.relaxPath edge)
      fun e later => among e (List.mem_cons_of_mem _ later)

/-- The walk back from a node gives a path that weighs no more than its label. -/
theorem Fits.walkBack {l : PathLabels W} (fits : Fits g rel source l)
    (named : ∀ x d, l.dist.find x = some d → x ≠ -1) {fuel : Nat} {cur : Int} {d : W}
    {back : List Int × List Bytes} (label : l.dist.find cur = some d)
    (walked : walkBack l.parent l.viaRel fuel cur = some back) :
    ∃ edges, Path g rel source cur back.1.reverse edges ∧
      edges.map Edge.relType = back.2.reverse ∧ (edges.map Edge.weight).sum ≤ d := by
  induction fuel generalizing cur d back with
  | zero => cases walked
  | succ fuel ih =>
    rw [Dijkstra.walkBack, if_neg (named cur d label)] at walked
    obtain ⟨rest, before, rfl⟩ := Option.map_eq_some_iff.mp walked
    by_cases first : cur = source
    · subst first
      have mark : l.parent.find cur = some (-1) := fits.source.2
      have zero : l.dist.find cur = some 0 := fits.source.1
      rw [mark, Option.getD_some] at before
      cases fuel with
      | zero => cases before
      | succ fuel =>
        cases before
        rw [zero, Option.some_inj] at label
        subst label
        exact ⟨[], .start, by simp [mark], le_refl _⟩
    · obtain ⟨p, d', w, parent, label', ⟨edge, among, matching, rfl, rfl, stored⟩, sum⟩ :=
        fits.others cur d label first
      have parent' : l.parent.find edge.toId = some p := parent
      rw [parent', Option.getD_some] at before
      obtain ⟨edges, path, names, less⟩ := ih label' before
      refine ⟨edges ++ [edge], ?_, ?_, ?_⟩
      · rw [List.reverse_cons]
        exact path.step among matching
      · simp only [parent', Option.getD_some, if_neg (named p d' label'), stored, List.map_append,
          names, List.singleton_append, List.reverse_cons, List.map_cons, List.map_nil]
      · rw [List.map_append, List.sum_append, List.map_singleton, List.sum_singleton]
        exact (add_le_add_left less edge.weight).trans sum

/-! ### `dijkstra_path` -/

omit [IsOrderedAddMonoid W] in
/-- The node that is taken from the queue has a label that does not exceed its cost. -/
theorem labelled_of_sound {l : PathLabels W} {pq : List (W × Int)}
    (sound : Sound (arrows g rel) source (-1) l.state)
    (popped : PriorityQueue.pop l.pq = some ((cost, node), pq)) :
    Labelled l node cost ∧ Walk (arrows g rel) source node cost := by
  have next := PriorityQueue.pop_perm popped
  obtain ⟨_, trail⟩ := sound.entries (cost, node) (next.mem_iff.mpr List.mem_cons_self)
  exact ⟨trail.label, trail.walk⟩

/-- The iterations keep a search sound, and the labels, the predecessors and the relations
fitting. -/
theorem Follows.fits (nonneg : ∀ u, ∀ edge ∈ g.neighbors u, 0 ≤ edge.weight) {l l' : PathLabels W}
    (follows : Follows g rel target l l') (sound : Sound (arrows g rel) source (-1) l.state)
    (fits : Fits g rel source l) :
    Sound (arrows g rel) source (-1) l'.state ∧ Fits g rel source l' := by
  have weights := arrows_nonneg rel nonneg
  have cycles : NoNegativeCycle (arrows g rel) source := noNegativeCycle_of_nonneg weights
  refine follows.keeps (P := fun l => Sound (arrows g rel) source (-1) l.state ∧
    Fits g rel source l) ?_ ⟨sound, fits⟩
  intro l cost node pq popped _ ⟨sound, fits⟩
  obtain ⟨label, walk⟩ := labelled_of_sound sound popped
  constructor
  · rw [state_afterNode]
    exact (sound.settle (closed_endpoints g rel source) cycles (PriorityQueue.pop_perm popped)).1
  · have fits' : Fits g rel source { l with pq := pq } := ⟨fits.source, fits.others⟩
    rw [afterNode]
    split
    · exact fits'
    · exact fits'.relaxAll (walk.nonneg weights) label
        fun edge among => ⟨among, nonneg node edge among⟩

theorem pathLoop_fits (nonneg : ∀ u, ∀ edge ∈ g.neighbors u, 0 ≤ edge.weight)
    (named : ∀ v, Reaches g rel source v → v ≠ -1) {fuel : Nat} {l : PathLabels W}
    {path : WeightedPath W} (sound : Sound (arrows g rel) source (-1) l.state)
    (fits : Fits g rel source l) (returned : pathLoop g rel target fuel l = some path) :
    path.nodes = [] ∨ ∃ edges, Path g rel source target path.nodes edges ∧
      edges.map Edge.relType = path.rels ∧ (edges.map Edge.weight).sum ≤ path.cost := by
  obtain ⟨l', follows, ends⟩ := pathLoop_ends returned
  obtain ⟨sound', fits'⟩ := follows.fits nonneg sound fits
  rcases ends with ⟨-, rfl⟩ | ⟨cost, pq, fuel', back, popped, walked, rfl⟩
  · exact Or.inl rfl
  · obtain ⟨⟨d, here, le⟩, -⟩ := labelled_of_sound sound' popped
    have names : ∀ x d, l'.dist.find x = some d → x ≠ -1 := by
      intro x d labelled
      obtain ⟨c, walk⟩ := sound'.reached x d labelled
      exact named x (reaches_of_walk walk)
    obtain ⟨edges, path, rels, sum⟩ := fits'.walkBack names here walked
    exact Or.inr ⟨edges, path, rels, sum.trans le⟩

/-- What `dijkstra_path` returns: a path of the least weight, its weight and the relations of its
edges if there is one. -/
structure Cheapest (g : DynamicGraph W) (rel : Bytes) (source target : Int) (path : WeightedPath W) :
    Prop where
  found : path.nodes ≠ [] ↔ Reaches g rel source target
  least : path.nodes ≠ [] → ∃ edges, Path g rel source target path.nodes edges ∧
    edges.map Edge.relType = path.rels ∧ (edges.map Edge.weight).sum = path.cost ∧
      ∀ nodes' edges', Path g rel source target nodes' edges' →
        path.cost ≤ (edges'.map Edge.weight).sum

/-- Without negative ids and weights `dijkstra_path` returns a cheapest path. -/
theorem dijkstraPath_cheapest (g : DynamicGraph W) (rel : Bytes) {source target : Int}
    (isId : 0 ≤ source) (isId' : 0 ≤ target) (ids : ∀ u, ∀ edge ∈ g.neighbors u, 0 ≤ edge.toId)
    (nonneg : ∀ u, ∀ edge ∈ g.neighbors u, 0 ≤ edge.weight) :
    ∃ path N, (∀ fuel, N ≤ fuel → dijkstraPath fuel g source target rel = some path) ∧
      Cheapest g rel source target path := by
  have weights := arrows_nonneg rel nonneg
  obtain ⟨N, path, returned⟩ := dijkstraPath_returns (noNegativeCycle_of_nonneg weights) target
  have named : ∀ v, Reaches g rel source v → v ≠ -1 := by
    rintro v ⟨nodes, edges, path⟩
    cases path with
    | start => omega
    | @step u _ _ edge _ among _ =>
      have := ids u edge among
      omega
  have racing := racing_initial (arrows g rel) source target (-1)
  have sound := sound_initial (arrows g rel) source (-1)
  rw [← state_start] at racing sound
  have ends := pathLoop_foremost (show target ≠ -1 by omega)
    (l := { start source with viaRel := ∅ }) racing returned
  have fits : Fits g rel source { start source with viaRel := ∅ } := by
    rw [Fits, state_start]
    exact recorded_initial _ _ _
  refine ⟨path, N, fun fuel enough => pathLoop_mono enough returned, ?_⟩
  rcases ends with ⟨empty, unreachable⟩ | ⟨nonempty, l, foremost⟩
  · refine ⟨iff_of_false (fun some => some empty) ?_, fun some => absurd empty some⟩
    rintro ⟨nodes, edges, other⟩
    exact unreachable _ other.walk
  · obtain ⟨edges, path', names, sum⟩ :=
      (pathLoop_fits nonneg named (l := { start source with viaRel := ∅ }) sound fits
        returned).resolve_left nonempty
    have least : ∀ nodes' edges', Path g rel source target nodes' edges' →
        path.cost ≤ (edges'.map Edge.weight).sum :=
      fun nodes' edges' other => foremost.least weights other.walk
    exact ⟨iff_of_true nonempty ⟨_, _, path'⟩, fun _ =>
      ⟨edges, path', names, le_antisymm sum (least _ _ path'), least⟩⟩

theorem dijkstraPath_cheapest_oneHop : ∃ path N,
    (∀ fuel, N ≤ fuel → dijkstraPath fuel oneHop.graph 1 2 (str "r") = some path) ∧
      Cheapest oneHop.graph (str "r") 1 2 path :=
  dijkstraPath_cheapest oneHop.graph (str "r") (by norm_num) (by norm_num)
    (CSRGraph.forall_edges_iff.mpr (by decide))
    (CSRGraph.forall_edges_iff.mpr (by decide))

/-! ### `dijkstra_all` -/

theorem allLoop_recorded (nonneg : ∀ u, ∀ edge ∈ g.neighbors u, 0 ≤ edge.weight) {fuel : Nat}
    {l : Labels W} {d : DistanceMap W} (sound : Sound (arrows g []) source (-1) l.state)
    (recorded : Recorded (fun p x w => (x, w) ∈ arrows g [] p) source (-1) l.state)
    (returned : allLoop g fuel l = some d) :
    ∃ queue, Recorded (fun p x w => (x, w) ∈ arrows g [] p) source (-1)
      ⟨d.dist.find, d.parent.find, queue⟩ := by
  have weights := arrows_nonneg [] nonneg
  have cycles : NoNegativeCycle (arrows g []) source := noNegativeCycle_of_nonneg weights
  induction fuel generalizing l with
  | zero => cases returned
  | succ fuel ih =>
    cases popped : PriorityQueue.pop l.pq with
    | none =>
      rw [allLoop, popped, Option.some_inj] at returned
      subst returned
      exact ⟨_, recorded⟩
    | some top =>
      obtain ⟨⟨cost, node⟩, pq⟩ := top
      have next := PriorityQueue.pop_perm popped
      obtain ⟨_, trail⟩ := sound.entries (cost, node) (next.mem_iff.mpr List.mem_cons_self)
      obtain ⟨x, label, le⟩ := trail.label
      obtain ⟨l', state, step⟩ := allLoop_step popped ⟨x, label⟩
      have sound' := (sound.settle (closed_endpoints g [] source) cycles next).1
      have recorded' := recorded.settle pq (trail.walk.nonneg weights) ⟨x, label, le⟩
        fun arc among => ⟨among, weights node arc among⟩
      rw [← state] at sound' recorded'
      rw [step] at returned
      exact ih sound' recorded' returned

/-- What `dijkstra_all` returns: the least weights of paths, for the nodes that are reached, and for
each but the source the node before the last of such a path. -/
structure LeastWeights (g : DynamicGraph W) (source : Int) (d : DistanceMap W) : Prop where
  defined : ∀ v, (d.dist.find v).isSome ↔ Reaches g [] source v
  least : ∀ v x, d.dist.find v = some x →
    (∃ nodes edges, Path g [] source v nodes edges ∧ (edges.map Edge.weight).sum = x) ∧
      ∀ nodes edges, Path g [] source v nodes edges → x ≤ (edges.map Edge.weight).sum
  parents : ∀ v x, d.dist.find v = some x → v ≠ source → ∃ p y, d.parent.find v = some p ∧
    Reaches g [] source p ∧ d.dist.find p = some y ∧
      ∃ edge ∈ g.neighbors p, edge.toId = v ∧ edge.weight = x - y

/-- Without negative weights `dijkstra_all` returns the least weights. -/
theorem dijkstraAll_least (g : DynamicGraph W) (source : Int)
    (nonneg : ∀ u, ∀ edge ∈ g.neighbors u, 0 ≤ edge.weight) :
    ∃ d N, (∀ fuel, N ≤ fuel → dijkstraAll fuel g source = some d) ∧ LeastWeights g source d := by
  have weights := arrows_nonneg [] nonneg
  obtain ⟨N, d, returned⟩ := dijkstraAll_returns (noNegativeCycle_of_nonneg weights)
  have covered := covered_initial (arrows g []) source (-1)
  have weighed := weighed_initial (arrows g []) source (-1)
  have sound := sound_initial (arrows g []) source (-1)
  have recorded := recorded_initial (fun p x w => (x, w) ∈ arrows g [] p) source (-1)
  rw [← state_start] at covered weighed sound recorded
  obtain ⟨walks, least⟩ := allLoop_least covered weighed returned
  obtain ⟨queue, recorded'⟩ := allLoop_recorded nonneg sound recorded returned
  have smallest : ∀ v x c, d.dist.find v = some x → Walk (arrows g []) source v c → x ≤ c := by
    intro v x c here walk
    obtain ⟨x', here', le⟩ := least v c walk
    rw [here, Option.some_inj] at here'
    rwa [here']
  refine ⟨d, N, fun fuel enough => allLoop_mono enough returned, ?_, ?_, ?_⟩
  · intro v
    constructor
    · intro some
      obtain ⟨x, here⟩ := Option.isSome_iff_exists.mp some
      exact reaches_of_walk (walks v x here)
    · rintro ⟨nodes, edges, path⟩
      obtain ⟨x, here, -⟩ := least v _ path.walk
      rw [here]
      rfl
  · intro v x here
    exact ⟨walk_iff.mp (walks v x here), fun nodes edges path => smallest v x _ here path.walk⟩
  · intro v x here other
    obtain ⟨p, y, w, parent, label, arc, sum⟩ := recorded'.others v x here other
    have reached := walks p y label
    have total : y + w = x := le_antisymm sum (smallest v x _ here (reached.snoc arc))
    rw [arrows_nil] at arc
    obtain ⟨edge, among, same⟩ := List.mem_map.mp arc
    obtain ⟨rfl, rfl⟩ := Prod.mk.inj same
    exact ⟨p, y, parent, reaches_of_walk reached, label, edge, among, rfl, eq_sub_of_add_eq' total⟩

theorem dijkstraAll_least_oneHop : ∃ d N,
    (∀ fuel, N ≤ fuel → dijkstraAll fuel oneHop.graph 1 = some d) ∧ LeastWeights oneHop.graph 1 d :=
  dijkstraAll_least oneHop.graph 1 (CSRGraph.forall_edges_iff.mpr (by decide))

end

end FastGraph.Dijkstra
