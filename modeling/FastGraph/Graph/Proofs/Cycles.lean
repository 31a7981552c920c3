import FastGraph.Graph.Proofs.Copies
import FastGraph.Graph.Proofs.Edges
import FastGraph.Graph.Proofs.HasCycle
import FastGraph.Misc.Postorder

/-!
# What `dfs_has_cycle` finds

The gray nodes are those whose calls are open and the black ones are finished. The answer is
whether a node of the graph leads to a cycle, which is whether there is one if every edge joins
nodes.
-/

namespace FastGraph.HasCycle
open DepthFirst BfsArrays

section
variable {W : Type} {g : DynamicGraph W} {color color' : UnorderedMap Int Int} {G D : List Int}
  {node : Int} {found : Bool}

/-- The colors of the nodes whose calls are open and of the finished ones. -/
def Colors (color : UnorderedMap Int Int) (G D : List Int) : Prop :=
  ∀ x, colorOf color x = if x ∈ G then 1 else if x ∈ D then 2 else 0

theorem Colors.white_iff (colors : Colors color G D) :
    colorOf color node = 0 ↔ node ∉ G ∧ node ∉ D := by
  rw [colors]
  split
  · rename_i gray
    exact iff_of_false (by decide) fun both => both.1 gray
  · rename_i notGray
    split
    · rename_i black
      exact iff_of_false (by decide) fun both => both.2 black
    · rename_i notBlack
      exact iff_of_true rfl ⟨notGray, notBlack⟩

theorem Colors.gray_iff (colors : Colors color G D) : colorOf color node = 1 ↔ node ∈ G := by
  rw [colors]
  split
  · rename_i gray
    exact iff_of_true rfl gray
  · rename_i notGray
    refine iff_of_false ?_ notGray
    split <;> decide

theorem Colors.set_gray (colors : Colors color G D) (node : Int) :
    Colors (color.set node 1) (node :: G) D := by
  intro x
  rw [colorOf_set, colors]
  by_cases here : x = node <;> simp [here]

theorem Colors.set_black (colors : Colors color (node :: G) D) (white : node ∉ G) :
    Colors (color.set node 2) G (D ++ [node]) := by
  intro x
  rw [colorOf_set, colors]
  by_cases here : x = node
  · simp [here, white]
  · simp [here]

/-- What the calls for `xs` give: `true` if they meet an open call. -/
def Explored (succ : Int → List Int) (G D xs : List Int) : Bool × UnorderedMap Int Int → Prop
  | (true, _) => Meets succ G D xs
  | (false, color) => ∃ D', Finishes succ False G D xs D' ∧ Colors color G D'

/-- What a call for `node` gives. -/
def Called (succ : Int → List Int) (G D : List Int) (node : Int) :
    Bool × UnorderedMap Int Int → Prop
  | (true, _) => Meets succ (node :: G) D (succ node)
  | (false, color) => ∃ D', Finishes succ False (node :: G) D (succ node) D' ∧
      Colors color G (D' ++ [node])

theorem visitEdges_explored {succ : Int → List Int}
    {visit : UnorderedMap Int Int → Int → Option (Bool × UnorderedMap Int Int)}
    (visits : ∀ D color node r, Colors color G D → node ∉ G ∧ node ∉ D →
      visit color node = some r → Called succ G D node r)
    {edges : List (Edge W)} (colors : Colors color G D) {r : Bool × UnorderedMap Int Int}
    (run : visitEdges visit edges color = some r) : Explored succ G D (edges.map Edge.toId) r := by
  induction edges generalizing color D with
  | nil =>
    cases run
    exact ⟨D, .done, colors⟩
  | cons e edges ih =>
    rw [List.map_cons]
    rw [visitEdges] at run
    split at run
    · rename_i gray
      cases run
      exact .here (colors.gray_iff.mp gray)
    · rename_i notGray
      split at run
      · rename_i white
        have white' := colors.white_iff.mp white
        obtain ⟨⟨found, after⟩, called, run⟩ := Option.bind_eq_some_iff.mp run
        have call := visits D color e.toId _ colors white' called
        cases found with
        | true =>
          cases run
          exact .call call
        | false =>
          obtain ⟨D₁, finishes, colors₁⟩ := call
          have rest := ih colors₁ run
          obtain ⟨found, last⟩ := r
          cases found with
          | true => exact .rest rest
          | false =>
            obtain ⟨D', rest, colors'⟩ := rest
            exact ⟨D', .new white' finishes rest, colors'⟩
      · rename_i notWhite
        have black : e.toId ∈ D := by
          by_contra notBlack
          exact notWhite (colors.white_iff.mpr
            ⟨fun mem => notGray (colors.gray_iff.mpr mem), notBlack⟩)
        have rest := ih colors run
        obtain ⟨found, last⟩ := r
        cases found with
        | true => exact .rest rest
        | false =>
          obtain ⟨D', rest, colors'⟩ := rest
          exact ⟨D', .old (Or.inl black) rest, colors'⟩

theorem visit_called {fuel : Nat} (colors : Colors color G D) (white : node ∉ G ∧ node ∉ D)
    {r : Bool × UnorderedMap Int Int} (run : visit g fuel color node = some r) :
    Called (successors g []) G D node r := by
  induction fuel generalizing color G D node r with
  | zero => cases run
  | succ fuel ih =>
    rw [visit] at run
    obtain ⟨⟨found, after⟩, looped, run⟩ := Option.bind_eq_some_iff.mp run
    have explored := visitEdges_explored
      (fun D color node r colors white run => ih colors white run) (colors.set_gray node) looped
    rw [← successors_nil] at explored
    cases found with
    | true =>
      cases run
      exact explored
    | false =>
      cases run
      obtain ⟨D', finishes, colors'⟩ := explored
      exact ⟨D', finishes, colors'.set_black white.1⟩

theorem visitAll_explored {fuel : Nat} {ids : List Int} (colors : Colors color [] D)
    (run : visitAll g fuel ids color = some found) :
    (found = true → Meets (successors g []) [] D ids) ∧
      (found = false → ∃ D', Finishes (successors g []) False [] D ids D') := by
  induction ids generalizing color D with
  | nil =>
    cases run
    refine ⟨?_, fun _ => ⟨D, .done⟩⟩
    intro hit
    cases hit
  | cons id ids ih =>
    rw [visitAll] at run
    split at run
    · rename_i white
      have white' := colors.white_iff.mp white
      obtain ⟨⟨hit, after⟩, called, run⟩ := Option.bind_eq_some_iff.mp run
      have call := visit_called colors white' called
      cases hit with
      | true =>
        cases run
        refine ⟨fun _ => .call call, ?_⟩
        intro none
        cases none
      | false =>
        obtain ⟨D₁, finishes, colors₁⟩ := call
        obtain ⟨meets, ends⟩ := ih colors₁ run
        refine ⟨fun hit => .rest (meets hit), fun none => ?_⟩
        obtain ⟨D', rest⟩ := ends none
        exact ⟨D', .new white' finishes rest⟩
    · rename_i notWhite
      have black : id ∈ D := by
        by_contra notBlack
        exact notWhite (colors.white_iff.mpr ⟨List.not_mem_nil, notBlack⟩)
      obtain ⟨meets, ends⟩ := ih colors run
      refine ⟨fun hit => .rest (meets hit), fun none => ?_⟩
      obtain ⟨D', rest⟩ := ends none
      exact ⟨D', .old (Or.inl black) rest⟩

/-- The loop over the nodes finds whether one of them leads to a cycle. -/
theorem visitAll_eq_true_iff {fuel : Nat} {ids : List Int}
    (run : visitAll g fuel ids ∅ = some found) :
    found = true ↔ ∃ id ∈ ids, ReachesCycle (successors g []) id := by
  obtain ⟨meets, ends⟩ := visitAll_explored (D := []) (fun _ => rfl) run
  cases found with
  | true => exact iff_of_true rfl ((meets rfl).reachesCycle nofun)
  | false =>
    obtain ⟨D', finishes⟩ := ends rfl
    refine iff_of_false nofun ?_
    intro ⟨id, among, cycle⟩
    have inside := (finishes.finished among).resolve_right And.left
    exact (finishes.sorted sorted_nil).not_reachesCycle inside cycle

end

end FastGraph.HasCycle

namespace FastGraph
open DepthFirst BfsArrays CSRGraph

section
variable {W : Type} {g : DynamicGraph W} {u v : Int}

/-- A path with at least one edge leads from `v` back to `v`. -/
def OnCycle (g : DynamicGraph W) (v : Int) : Prop :=
  ∃ nodes edges, Path g [] v v nodes edges ∧ edges ≠ []

/-- A path leads from `id` to a cycle. -/
def LeadsToCycle (g : DynamicGraph W) (id : Int) : Prop := ∃ v, Reaches g [] id v ∧ OnCycle g v

theorem leads_iff : Leads (successors g []) u v ↔
    ∃ nodes edges, Path g [] u v nodes edges ∧ edges ≠ [] := by
  rw [Leads, Relation.TransGen.tail'_iff]
  constructor
  · intro ⟨w, reaches, next⟩
    obtain ⟨nodes, edges, path⟩ := reaches_iff.mpr reaches
    obtain ⟨edge, among, matching, rfl⟩ := mem_successors.mp next
    exact ⟨_, _, path.step among matching, by simp⟩
  · intro ⟨nodes, edges, path, nonempty⟩
    cases path with
    | start => exact absurd rfl nonempty
    | step path among matching =>
      exact ⟨_, reaches_iff.mp ⟨_, _, path⟩, mem_successors.mpr ⟨_, among, matching, rfl⟩⟩

theorem leadsToCycle_iff : LeadsToCycle g u ↔ ReachesCycle (successors g []) u := by
  refine exists_congr fun v => ?_
  rw [reaches_iff, leads_iff, OnCycle]

theorem hasNode_iff {id : Int} : g.hasNode id ↔ id ∈ g.nodes.toList.map Prod.fst := by
  rw [DynamicGraph.hasNode, UnorderedMap.map_fst_toList, Option.isSome_iff_ne_none, ne_eq,
    UnorderedMap.find_eq_none_iff, not_not]

/-- `dfs_has_cycle` ends and finds whether some node leads to a cycle. -/
theorem dfsHasCycle_iff (g : DynamicGraph W) :
    ∃ N, ∀ fuel, N ≤ fuel → ∀ order, ∃ found, dfsHasCycle fuel g order = some found ∧
      (found = true ↔ ∃ id, g.hasNode id ∧ LeadsToCycle g id) := by
  obtain ⟨N, returns⟩ := dfsHasCycle_returns g
  refine ⟨N, fun fuel enough order => ?_⟩
  obtain ⟨found, run⟩ := returns fuel enough order
  refine ⟨found, run, ?_⟩
  rw [HasCycle.visitAll_eq_true_iff run]
  refine exists_congr fun id => and_congr ?_ leadsToCycle_iff.symm
  rw [((order.perm g.nodes.toList).map Prod.fst).mem_iff, hasNode_iff]

/-- If every edge joins two nodes, `dfs_has_cycle` finds whether the graph has a cycle. -/
theorem dfsHasCycle_joined (joined : Joined g) :
    ∃ N, ∀ fuel, N ≤ fuel → ∀ order, ∃ found, dfsHasCycle fuel g order = some found ∧
      (found = true ↔ ∃ v, OnCycle g v) := by
  obtain ⟨N, returns⟩ := dfsHasCycle_iff g
  refine ⟨N, fun fuel enough order => ?_⟩
  obtain ⟨found, run, leads⟩ := returns fuel enough order
  refine ⟨found, run, leads.trans ⟨?_, ?_⟩⟩
  · intro ⟨id, _, v, _, cycle⟩
    exact ⟨v, cycle⟩
  · intro ⟨v, nodes, edges, path, nonempty⟩
    have cycle : OnCycle g v := ⟨nodes, edges, path, nonempty⟩
    cases path with
    | start => exact absurd rfl nonempty
    | step path among matching =>
      exact ⟨_, (joined _ _ among).2, _, ⟨_, _, .start⟩, cycle⟩

/-! ### A node more -/

theorem neighbors_addNode (g : DynamicGraph W) (id : Int) (labelPtr : CharPtr) (props : Bytes)
    (u : Int) : (g.addNode id labelPtr props).neighbors u = g.neighbors u :=
  DynamicGraph.row_addNode g.adj id u

theorem leadsToCycle_addNode (g : DynamicGraph W) (id : Int) (labelPtr : CharPtr) (props : Bytes) :
    LeadsToCycle (g.addNode id labelPtr props) u ↔ LeadsToCycle g u := by
  have same : successors (g.addNode id labelPtr props) [] = successors g [] := by
    funext u
    rw [successors, successors, neighbors_addNode]
  rw [leadsToCycle_iff, leadsToCycle_iff, same]

theorem hasNode_addNode (g : DynamicGraph W) (id : Int) (labelPtr : CharPtr) (props : Bytes) :
    (g.addNode id labelPtr props).hasNode u ↔ u = id ∨ g.hasNode u := by
  rw [DynamicGraph.hasNode, DynamicGraph.addNode]
  dsimp only
  rw [UnorderedMap.find_set]
  split
  · rename_i same
    exact iff_of_true rfl (Or.inl same)
  · rename_i other
    rw [or_iff_right other]
    rfl

/-- Adding a node leaves the answer as it is unless the node leads to a cycle that no other node
leads to. -/
theorem dfsHasCycle_addNode_iff (ops : List (DynamicGraph.Op W)) (id : Int) (labelPtr : CharPtr)
    (props : Bytes) :
    ∃ N, ∀ fuel, N ≤ fuel → ∀ order order', ∃ found found',
      dfsHasCycle fuel (DynamicGraph.run ops .empty) order = some found ∧
      dfsHasCycle fuel ((DynamicGraph.run ops .empty).addNode id labelPtr props) order' =
        some found' ∧
      (found' = found ↔ (LeadsToCycle (DynamicGraph.run ops .empty) id →
        ∃ id', (DynamicGraph.run ops .empty).hasNode id' ∧
          LeadsToCycle (DynamicGraph.run ops .empty) id')) := by
  generalize DynamicGraph.run ops .empty = g
  obtain ⟨N, returns⟩ := dfsHasCycle_iff g
  obtain ⟨N', returns'⟩ := dfsHasCycle_iff (g.addNode id labelPtr props)
  refine ⟨max N N', fun fuel enough order order' => ?_⟩
  obtain ⟨found, run, leads⟩ := returns fuel (le_of_max_le_left enough) order
  obtain ⟨found', run', leads'⟩ := returns' fuel (le_of_max_le_right enough) order'
  refine ⟨found, found', run, run', ?_⟩
  simp only [leadsToCycle_addNode, hasNode_addNode, or_and_right, exists_or, exists_eq_left] at leads'
  rw [Bool.eq_iff_iff, leads, leads']
  exact or_iff_right_iff_imp

/-- Two edges that form a cycle, between ids that are no nodes. -/
def hiddenCycle : DynamicGraph Int := DynamicGraph.run [.addEdge 1 2 [] 1, .addEdge 2 1 [] 1] .empty

/-- The cycle is found once one of its ends is a node. -/
theorem hiddenCycle_found : dfsHasCycle 5 hiddenCycle .asListed = some false ∧
    dfsHasCycle 5 (hiddenCycle.addNode 1 none []) .asListed = some true := by
  decide

theorem dfsHasCycle_joined_node : ∃ N, ∀ fuel, N ≤ fuel → ∀ order, ∃ found,
    dfsHasCycle fuel ((hiddenCycle.addNode 1 none []).addNode 2 none []) order = some found ∧
      (found = true ↔ ∃ v, OnCycle ((hiddenCycle.addNode 1 none []).addNode 2 none []) v) :=
  dfsHasCycle_joined (by decide)

end

end FastGraph
