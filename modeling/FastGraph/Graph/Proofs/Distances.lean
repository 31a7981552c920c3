import FastGraph.Graph.Proofs.Dijkstra
import FastGraph.Misc.Foremost

/-!
# The cost of a path and the distance

`dijkstra_path` stops when it takes the first label of the target, `dijkstra_all` goes on until no
label can be improved. With negative weights the first label taken need not be the least, and the
graph decides whether it is: it is the weight of the foremost walks to the target.
-/

namespace FastGraph.Dijkstra
open ShortestPaths

section
variable {W : Type} [AddCommGroup W] [LinearOrder W] [IsOrderedAddMonoid W] {g : DynamicGraph W}
  {source target : Int}

/-- What `dijkstra_all` returns are the least weights of walks. -/
theorem allLoop_least {fuel : Nat} {l : Labels W} {d : DistanceMap W}
    (covered : Covered (arrows g []) source l.state) (weighed : Weighed (arrows g []) source l.state)
    (returned : allLoop g fuel l = some d) :
    (∀ v x, d.dist.find v = some x → Walk (arrows g []) source v x) ∧
      ∀ v c, Walk (arrows g []) source v c → ∃ x, d.dist.find v = some x ∧ x ≤ c := by
  induction fuel generalizing l with
  | zero => cases returned
  | succ fuel ih =>
    cases popped : PriorityQueue.pop l.pq with
    | none =>
      rw [allLoop, popped, Option.some_inj] at returned
      subst returned
      exact ⟨weighed.labels, fun v c walk =>
        covered.least weighed (PriorityQueue.pop_eq_none popped) walk⟩
    | some top =>
      obtain ⟨⟨cost, node⟩, pq⟩ := top
      have next := PriorityQueue.pop_perm popped
      obtain ⟨labelled, -⟩ := covered.queued (cost, node) (next.mem_iff.mpr List.mem_cons_self)
      obtain ⟨l', state, step⟩ := allLoop_step popped labelled
      have covered' := covered.settle next
      have weighed' := weighed.settle next
      rw [← state] at covered' weighed'
      rw [step] at returned
      exact ih covered' weighed' returned

theorem Follows.racing {rel : Bytes} {l l' : PathLabels W} (follows : Follows g rel target l l')
    (racing : Racing (arrows g rel) source target l.state) :
    Racing (arrows g rel) source target l'.state := by
  refine follows.keeps (P := fun l => Racing (arrows g rel) source target l.state) ?_ racing
  intro l cost node pq popped other racing
  have least : ∀ e ∈ l.state.queue, toLex (cost, node) ≤ toLex e := PriorityQueue.pop_least popped
  rw [state_afterNode]
  exact racing.settle (PriorityQueue.pop_perm popped) other least

/-- What `dijkstra_path` returns: nothing if no walk leads to the target, or the weight of a foremost
walk. -/
theorem pathLoop_foremost {rel : Bytes} (named : target ≠ -1) {fuel : Nat} {l : PathLabels W}
    {path : WeightedPath W} (racing : Racing (arrows g rel) source target l.state)
    (returned : pathLoop g rel target fuel l = some path) :
    path.nodes = [] ∧ (∀ c, ¬ Walk (arrows g rel) source target c) ∨
      path.nodes ≠ [] ∧ ∃ l', Foremost (arrows g rel) source target ((path.cost, target) :: l') := by
  obtain ⟨l', follows, ends⟩ := pathLoop_ends returned
  have racing' := follows.racing racing
  rcases ends with ⟨popped, rfl⟩ | ⟨cost, pq, fuel', back, popped, walked, rfl⟩
  · exact Or.inl ⟨rfl, fun c => racing'.unreachable (PriorityQueue.pop_eq_none popped)⟩
  · have least : ∀ e ∈ l'.state.queue, toLex (cost, target) ≤ toLex e :=
      PriorityQueue.pop_least popped
    refine Or.inr ⟨?_, racing'.foremost
      ((PriorityQueue.pop_perm popped).mem_iff.mpr List.mem_cons_self) least⟩
    -- the walk back begins with the target
    cases fuel' with
    | zero => cases walked
    | succ fuel' =>
      rw [walkBack, if_neg named] at walked
      obtain ⟨rest, -, rfl⟩ := Option.map_eq_some_iff.mp walked
      simp

/-- The path is not empty exactly if the target has a distance, and then that is its cost. -/
structure Agree (path : WeightedPath W) (d : DistanceMap W) (target : Int) : Prop where
  found : path.nodes ≠ [] ↔ (d.dist.find target).isSome
  cost : ∀ x, d.dist.find target = some x → path.cost = x

/-- No walk leads to the target, or a foremost walk has the least weight. -/
def LeastFirst (g : DynamicGraph W) (source target : Int) : Prop :=
  (∀ c, ¬ Walk (arrows g []) source target c) ∨
    ∃ c l, Foremost (arrows g []) source target ((c, target) :: l) ∧
      ∀ c', Walk (arrows g []) source target c' → c ≤ c'

/-- Where both functions return, they agree exactly if a foremost walk to the target has the least
weight. -/
theorem agree_iff (g : DynamicGraph W) (source target : Int) (nonneg : 0 ≤ target) {fuel fuel' : Nat}
    {path : WeightedPath W} {d : DistanceMap W}
    (returned : dijkstraPath fuel g source target [] = some path)
    (returned' : dijkstraAll fuel' g source = some d) :
    Agree path d target ↔ LeastFirst g source target := by
  have racing := racing_initial (arrows g []) source target (-1)
  have covered := covered_initial (arrows g []) source (-1)
  have weighed := weighed_initial (arrows g []) source (-1)
  rw [← state_start] at racing covered weighed
  obtain ⟨walks, least⟩ := allLoop_least covered weighed returned'
  have ends := pathLoop_foremost (show target ≠ -1 by omega)
    (l := { start source with viaRel := ∅ }) racing returned
  constructor
  · intro agree
    rcases ends with ⟨-, unreachable⟩ | ⟨nonempty, l', foremost⟩
    · exact Or.inl unreachable
    · obtain ⟨x, here⟩ := Option.isSome_iff_exists.mp (agree.found.mp nonempty)
      refine Or.inr ⟨path.cost, l', foremost, ?_⟩
      intro c' walk
      obtain ⟨x', here', less⟩ := least target c' walk
      rw [here, Option.some_inj] at here'
      rw [agree.cost x here, here']
      exact less
  · intro first
    rcases ends with ⟨empty, unreachable⟩ | ⟨nonempty, l', foremost⟩
    · have none : d.dist.find target = none := by
        cases here : d.dist.find target with
        | none => rfl
        | some x => exact absurd (walks target x here) (unreachable x)
      refine ⟨iff_of_false (fun some => some empty) (by rw [none]; simp), ?_⟩
      intro x here
      rw [none] at here
      cases here
    · have walk := foremost.route.walk
      obtain ⟨x, here, -⟩ := least target path.cost walk
      refine ⟨iff_of_true nonempty (by rw [here]; rfl), ?_⟩
      intro y here'
      rw [here, Option.some_inj] at here'
      subst here'
      rcases first with unreachable | ⟨c, l, other, smallest⟩
      · exact absurd walk (unreachable _)
      · have same := foremost.unique other
        obtain ⟨x', here', less⟩ := least target path.cost walk
        rw [here, Option.some_inj] at here'
        subst here'
        refine le_antisymm ?_ less
        rw [same]
        exact smallest x (walks target x here)

end

/-- An edge from 1 to 2, and a detour over 3 that costs less. -/
def detour : DynamicGraph Int :=
  DynamicGraph.run [.addEdge 1 2 (str "r") 2, .addEdge 1 3 (str "r") 5,
    .addEdge 3 2 (str "r") (-4)] .empty

theorem agree_iff_detour : LeastFirst detour 1 3 := by
  obtain ⟨d, returned⟩ := Option.isSome_iff_exists.mp
    (show (dijkstraAll 9 detour 1).isSome by decide)
  have path : dijkstraPath 9 detour 1 3 [] = some ⟨[1, 3], [str "r"], 5⟩ := by decide
  have entry : (dijkstraAll 9 detour 1).map (fun d => d.dist.find 3) = some (some 5) := by
    decide
  rw [returned, Option.map_some, Option.some_inj] at entry
  refine (agree_iff detour 1 3 (by norm_num) path returned).mp ⟨by simp [entry], ?_⟩
  intro x here
  rw [entry, Option.some_inj] at here
  exact here

/-- The path to 2 is found before the detour is followed up. -/
theorem detour_missed : ∃ d, dijkstraPath 9 detour 1 2 [] = some ⟨[1, 2], [str "r"], 2⟩ ∧
    dijkstraAll 9 detour 1 = some d ∧ d.dist.find 2 = some 1 ∧
    ¬ Agree ⟨[1, 2], [str "r"], 2⟩ d 2 := by
  obtain ⟨d, returned⟩ := Option.isSome_iff_exists.mp
    (show (dijkstraAll 9 detour 1).isSome by decide)
  have entry : (dijkstraAll 9 detour 1).map (fun d => d.dist.find 2) = some (some 1) := by
    decide
  rw [returned, Option.map_some, Option.some_inj] at entry
  refine ⟨d, by decide, returned, entry, ?_⟩
  intro agree
  exact absurd (agree.cost 1 entry) (by norm_num)

end FastGraph.Dijkstra
