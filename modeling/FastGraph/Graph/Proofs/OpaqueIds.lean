import FastGraph.Graph.Proofs.Cheapest
import FastGraph.Graph.Proofs.Renaming

/-!
# The ids in weighted paths

Edges and weights decide whether `dijkstra_path` finds a path and what that costs, and ids break
ties. One id is more than a name: the walk back takes −1 for the mark of the source, so that the
path to a node of that id is lost and a path through it is cut.
-/

namespace FastGraph.Dijkstra
open ShortestPaths BfsArrays

section
variable {W : Type} [AddCommGroup W] [LinearOrder W] {g g' : DynamicGraph W} {rel : Bytes}
  {source target : Int} {path path' : WeightedPath W} {f : Int → Int}

/-! ### The walk back -/

/-- The walk back begins where it is sent off and does not list the mark. -/
theorem walkBack_lists {parent : UnorderedMap Int Int} {viaRel : UnorderedMap Int Bytes} {fuel : Nat}
    {cur : Int} {back : List Int × List Bytes} (walked : walkBack parent viaRel fuel cur = some back) :
    (back.1 = [] ↔ cur = -1) ∧ (cur ≠ -1 → back.1.head? = some cur) ∧ -1 ∉ back.1 := by
  induction fuel generalizing cur back with
  | zero => cases walked
  | succ fuel ih =>
    rw [walkBack] at walked
    split at walked
    · rename_i mark
      cases walked
      exact ⟨iff_of_true rfl mark, fun other => absurd mark other, List.not_mem_nil⟩
    · rename_i other
      obtain ⟨rest, before, rfl⟩ := Option.map_eq_some_iff.mp walked
      refine ⟨iff_of_false (by simp) other, fun _ => rfl, ?_⟩
      rw [List.mem_cons, not_or]
      exact ⟨Ne.symm other, (ih before).2.2⟩

/-- No edge that the filter lets through leads from −1 to another id. -/
def Sink (g : DynamicGraph W) (rel : Bytes) : Prop :=
  ∀ e ∈ g.neighbors (-1), passes rel e → e.toId = -1

/-- Where no path leads through −1 the walk back ends at the source. -/
theorem walkBack_source {l : PathLabels W} (fits : Fits g rel source l) (sink : Sink g rel)
    {fuel : Nat} {cur : Int} {d : W} {back : List Int × List Bytes} (other : cur ≠ -1)
    (label : l.dist.find cur = some d) (walked : walkBack l.parent l.viaRel fuel cur = some back) :
    back.1.getLast? = some source := by
  induction fuel generalizing cur d back with
  | zero => cases walked
  | succ fuel ih =>
    rw [walkBack, if_neg other] at walked
    obtain ⟨rest, before, rfl⟩ := Option.map_eq_some_iff.mp walked
    by_cases first : cur = source
    · subst first
      have mark : l.parent.find cur = some (-1) := fits.source.2
      rw [mark, Option.getD_some] at before
      have none := (walkBack_lists before).1.mpr rfl
      rw [none]
      rfl
    · obtain ⟨p, d', w, parent, label', ⟨edge, among, matching, rfl, -⟩, -⟩ :=
        fits.others cur d label first
      have parent' : l.parent.find edge.toId = some p := parent
      rw [parent', Option.getD_some] at before
      have inner : p ≠ -1 := by
        rintro rfl
        exact other (sink edge among matching)
      have last := ih inner label' before
      rw [List.getLast?_cons, last, Option.getD_some]

/-! ### What is returned -/

/-- The function returns the path, given iterations enough. -/
def Answers (g : DynamicGraph W) (rel : Bytes) (source target : Int) (path : WeightedPath W) : Prop :=
  ∃ N, ∀ fuel, N ≤ fuel → dijkstraPath fuel g source target rel = some path

theorem Answers.unique (answers : Answers g rel source target path)
    (answers' : Answers g rel source target path') : path = path' := by
  obtain ⟨N, one⟩ := answers
  obtain ⟨N', two⟩ := answers'
  exact Option.some.inj ((one (max N N') (le_max_left _ _)).symm.trans (two _ (le_max_right _ _)))

theorem answers_of_returned {fuel : Nat}
    (returned : dijkstraPath fuel g source target rel = some path) :
    Answers g rel source target path :=
  ⟨fuel, fun _ enough => pathLoop_mono enough returned⟩

/-- What is returned if the target is reached: the least weight, and nodes of which the last is the
target and −1 is none. -/
structure Found (g : DynamicGraph W) (rel : Bytes) (source target : Int) (path : WeightedPath W) :
    Prop where
  walk : Walk (arrows g rel) source target path.cost
  least : ∀ c, Walk (arrows g rel) source target c → path.cost ≤ c
  empty : path.nodes = [] ↔ target = -1
  last : target ≠ -1 → path.nodes.getLast? = some target
  first : target ≠ -1 → Sink g rel → path.nodes.head? = some source
  unmarked : -1 ∉ path.nodes

variable [IsOrderedAddMonoid W]

/-- Without negative weights the function returns, and nothing is returned if and only if the target
is not reached. -/
theorem dijkstraPath_found (nonneg : ∀ u, ∀ edge ∈ g.neighbors u, 0 ≤ edge.weight) (rel : Bytes)
    (source target : Int) :
    ∃ path, Answers g rel source target path ∧
      (path = ⟨[], [], 0⟩ ∧ (∀ c, ¬ Walk (arrows g rel) source target c) ∨
        Found g rel source target path) := by
  have weights := arrows_nonneg rel nonneg
  obtain ⟨fuel, path, returned⟩ := dijkstraPath_returns (noNegativeCycle_of_nonneg weights) target
  refine ⟨path, answers_of_returned returned, ?_⟩
  have racing := racing_initial (arrows g rel) source target (-1)
  have sound := sound_initial (arrows g rel) source (-1)
  rw [← state_start] at racing sound
  have fits : Fits g rel source { start source with viaRel := ∅ } := by
    rw [Fits, state_start]
    exact recorded_initial _ _ _
  obtain ⟨l, follows, ends⟩ := pathLoop_ends returned
  have racing' := follows.racing racing
  obtain ⟨sound', fits'⟩ := follows.fits nonneg sound fits
  rcases ends with ⟨popped, rfl⟩ | ⟨cost, pq, fuel', back, popped, walked, rfl⟩
  · exact Or.inl ⟨rfl, fun c => racing'.unreachable (PriorityQueue.pop_eq_none popped)⟩
  · right
    obtain ⟨⟨d, label, -⟩, walk⟩ := labelled_of_sound sound' popped
    obtain ⟨l', foremost⟩ := racing'.foremost
      ((PriorityQueue.pop_perm popped).mem_iff.mpr List.mem_cons_self)
      (PriorityQueue.pop_least popped)
    obtain ⟨none, begins, unmarked⟩ := walkBack_lists walked
    refine ⟨walk, fun c other => foremost.least weights other, ?_, ?_, ?_, ?_⟩
    · rw [List.reverse_eq_nil_iff, none]
    · intro other
      rw [List.getLast?_reverse, begins other]
    · intro other sink
      rw [List.head?_reverse]
      exact walkBack_source fits' sink other label walked
    · rw [List.mem_reverse]
      exact unmarked

/-! ### Renaming -/

/-- What a renaming must not change: whether there is a path and its cost. A path begins with the
renamed source and ends with the renamed target. -/
structure Opaque (f : Int → Int) (source target : Int) (path path' : WeightedPath W) : Prop where
  empty : path'.nodes = [] ↔ path.nodes = []
  cost : path'.cost = path.cost
  ends : path'.nodes ≠ [] →
    path'.nodes.head? = some (f source) ∧ path'.nodes.getLast? = some (f target)

/-- The function treats the ids of the two graphs as names. -/
def TreatsAlike (f : Int → Int) (g g' : DynamicGraph W) (rel : Bytes) : Prop :=
  ∀ source target, IsId g source → IsId g target → ∃ path path',
    Answers g rel source target path ∧ Answers g' rel (f source) (f target) path' ∧
      Opaque f source target path path'

omit [AddCommGroup W] [LinearOrder W] [IsOrderedAddMonoid W] in
theorem renamed_arrows (renamed : Renamed f g g') {v : Int} (isId : IsId g v) :
    arrows g' rel (f v) = (arrows g rel v).map fun a => (f a.1, a.2) := by
  rw [arrows, renamed.edges v isId, List.filter_map, arrows, List.map_map, List.map_map]
  rfl

omit [IsOrderedAddMonoid W] [LinearOrder W] in
theorem renamed_walk_iff (renamed : Renamed f g g') (isId : IsId g source) (isId' : IsId g target)
    {c : W} : Walk (arrows g' rel) (f source) (f target) c ↔ Walk (arrows g rel) source target c := by
  refine walk_map_iff isId isId' ?_ (fun v => renamed_arrows renamed) renamed.injective
  intro v _ a mem
  obtain ⟨e, passing, rfl⟩ := List.mem_map.mp mem
  exact (IsId.of_edge (List.mem_filter.mp passing).1).2

omit [IsOrderedAddMonoid W] in
theorem renamed_nonneg (renamed : Renamed f g g')
    (nonneg : ∀ u, ∀ edge ∈ g.neighbors u, 0 ≤ edge.weight) :
    ∀ u, ∀ edge ∈ g'.neighbors u, 0 ≤ edge.weight := by
  intro u e' among
  obtain ⟨v, e, -, -, mem, rfl⟩ := renamed.edge among
  exact nonneg v e mem

omit [AddCommGroup W] [LinearOrder W] [IsOrderedAddMonoid W] in
/-- Where −1 keeps its name and its place, it is a sink of both graphs. -/
theorem renamed_sink (renamed : Renamed f g g') (marks : ∀ v, IsId g v → (f v = -1 ↔ v = -1))
    (sink : Sink g rel) : Sink g' rel := by
  intro e' among matching
  obtain ⟨v, e, isId, named, mem, rfl⟩ := renamed.edge among
  obtain rfl := (marks v isId).mp named
  have own : e.toId = -1 := sink e mem matching
  change f e.toId = -1
  rw [own, named]

/-- `dijkstra_path` treats ids as names exactly if no other id is −1 or becomes −1, and −1, where it
is an id and stays, is on no path to another id. -/
theorem treatsAlike_iff (renamed : Renamed f g g')
    (nonneg : ∀ u, ∀ edge ∈ g.neighbors u, 0 ≤ edge.weight) (rel : Bytes) :
    TreatsAlike f g g' rel ↔ (∀ v, IsId g v → (f v = -1 ↔ v = -1)) ∧ Sink g rel := by
  have nonneg' := renamed_nonneg renamed nonneg
  constructor
  · intro alike
    have found {s t : Int} (isId : IsId g s) (isId' : IsId g t) {c : W}
        (walk : Walk (arrows g rel) s t c) : ∃ path path', Found g rel s t path ∧
        Found g' rel (f s) (f t) path' ∧ Opaque f s t path path' := by
      obtain ⟨path, path', answers, answers', same⟩ := alike s t isId isId'
      obtain ⟨path₁, answers₁, ends⟩ := dijkstraPath_found nonneg rel s t
      obtain ⟨path₂, answers₂, ends'⟩ := dijkstraPath_found nonneg' rel (f s) (f t)
      obtain rfl := answers.unique answers₁
      obtain rfl := answers'.unique answers₂
      exact ⟨path, path', ends.resolve_left fun lost => lost.2 c walk,
        ends'.resolve_left fun lost => lost.2 c ((renamed_walk_iff renamed isId isId').mpr walk), same⟩
    have marks (v : Int) (isId : IsId g v) : f v = -1 ↔ v = -1 := by
      obtain ⟨path, path', one, two, same⟩ := found isId isId .nil
      rw [← two.empty, same.empty, one.empty]
    refine ⟨marks, ?_⟩
    intro e among matching
    by_contra leaves
    obtain ⟨isId, isId'⟩ := IsId.of_edge among
    have mem : arc e ∈ arrows g rel (-1) :=
      List.mem_map_of_mem (List.mem_filter.mpr ⟨among, matching⟩)
    obtain ⟨path, path', -, two, same⟩ := found isId isId' (Walk.single mem)
    have other : f e.toId ≠ -1 := fun mark => leaves ((marks _ isId').mp mark)
    have begins := (same.ends fun none => other (two.empty.mp none)).1
    rw [(marks _ isId).mpr rfl] at begins
    exact two.unmarked (List.mem_of_mem_head? begins)
  · intro ⟨marks, sink⟩ s t isId isId'
    obtain ⟨path, answers, ends⟩ := dijkstraPath_found nonneg rel s t
    obtain ⟨path', answers', ends'⟩ := dijkstraPath_found nonneg' rel (f s) (f t)
    refine ⟨path, path', answers, answers', ?_⟩
    rcases ends with ⟨rfl, lost⟩ | one
    · rcases ends' with ⟨rfl, -⟩ | two
      · exact ⟨Iff.rfl, rfl, fun some => absurd rfl some⟩
      · exact absurd ((renamed_walk_iff renamed isId isId').mp two.walk) (lost _)
    · rcases ends' with ⟨-, lost⟩ | two
      · exact absurd ((renamed_walk_iff renamed isId isId').mpr one.walk) (lost _)
      · refine ⟨?_, le_antisymm ?_ ?_, ?_⟩
        · rw [two.empty, one.empty, marks t isId']
        · exact two.least _ ((renamed_walk_iff renamed isId isId').mpr one.walk)
        · exact one.least _ ((renamed_walk_iff renamed isId isId').mp two.walk)
        · intro some
          have other : f t ≠ -1 := fun mark => some (two.empty.mpr mark)
          exact ⟨two.first other (renamed_sink renamed marks sink), two.last other⟩

end

/-! ### A chain -/

/-- Edges from 1 to 2 and from 2 to 3. -/
def chain : List (DynamicGraph.Op Int) := [.addEdge 1 2 (str "r") 1, .addEdge 2 3 (str "r") 1]

theorem mem_ids_chain {v : Int} : (∃ op ∈ chain, v ∈ op.ids) ↔ v = 1 ∨ v = 2 ∨ v = 3 := by
  simp only [chain, List.mem_cons, List.not_mem_nil, or_false, exists_eq_or_imp, exists_eq_left,
    DynamicGraph.Op.ids]
  omega

theorem nonneg_chain :
    ∀ u, ∀ edge ∈ (DynamicGraph.run chain .empty).neighbors u, 0 ≤ edge.weight :=
  CSRGraph.forall_edges_iff.mpr (by decide)

/-- Ten is added to every id. -/
theorem treatsAlike_iff_chain : TreatsAlike (· + 10) (DynamicGraph.run chain .empty)
    (DynamicGraph.run (chain.map (DynamicGraph.Op.rename (· + 10))) .empty) (str "r") := by
  obtain ⟨ids, renamed⟩ := DynamicGraph.renamed_run (f := (· + 10)) chain fun u v _ _ same => by
    omega
  refine (treatsAlike_iff renamed nonneg_chain (str "r")).mpr ⟨?_, ?_⟩
  · intro v isId
    have among := mem_ids_chain.mp (ids v isId)
    omega
  · intro e among
    cases among

/-- The node in the middle of the chain becomes −1. -/
def cut (v : Int) : Int := if v = 2 then -1 else v

/-- The path from 1 to 3 over −1 is returned as the path [3]. -/
theorem chain_cut : Renamed cut (DynamicGraph.run chain .empty)
      (DynamicGraph.run (chain.map (DynamicGraph.Op.rename cut)) .empty) ∧
    ¬ TreatsAlike cut (DynamicGraph.run chain .empty)
      (DynamicGraph.run (chain.map (DynamicGraph.Op.rename cut)) .empty) (str "r") := by
  constructor
  · refine (DynamicGraph.renamed_run chain ?_).2
    intro u v one two same
    rw [mem_ids_chain] at one two
    unfold cut at same
    split at same <;> split at same <;> omega
  · intro alike
    have source : IsId (DynamicGraph.run chain .empty) 1 := Or.inr (Or.inl (by decide))
    have target : IsId (DynamicGraph.run chain .empty) 3 :=
      Or.inr (Or.inr ⟨2, ⟨3, str "r", 1⟩, by decide, rfl⟩)
    obtain ⟨path, path', -, answers, same⟩ := alike 1 3 source target
    have returned : dijkstraPath 9 (DynamicGraph.run (chain.map (DynamicGraph.Op.rename cut)) .empty)
        (cut 1) (cut 3) (str "r") = some ⟨[3], [], 2⟩ := by decide
    obtain rfl := answers.unique (answers_of_returned returned)
    exact absurd (same.ends (by decide)).1 (by decide)

end FastGraph.Dijkstra
