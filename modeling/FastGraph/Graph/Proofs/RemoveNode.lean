import FastGraph.Graph.Proofs.Edges

/-!
# What `remove_node` removes

The lists of the other nodes lose the edges to the node and keep the rest in its order, and the
node has neither edges nor metadata left. The counter goes down by the number of the edges that
had an end there unless that takes it below the smallest `int`: every `remove_edge` of a single
edge takes one too many off it, so that it can get there with hardly an edge in the graph.
-/

namespace FastGraph.DynamicGraph
open Adjacency

section
variable {W : Type} {g : DynamicGraph W} {id : Int}

/-- The edge starts or ends at `id`. -/
def Touches (id : Int) (x : Int × Edge W) : Prop := x.1 = id ∨ x.2.toId = id

instance (id : Int) : DecidablePred (Touches (W := W) id) :=
  fun x => inferInstanceAs (Decidable (x.1 = id ∨ x.2.toId = id))

/-- `g'` is `g` without the node `id` and the edges that start or end there. -/
structure WithoutNode (g : DynamicGraph W) (id : Int) (g' : DynamicGraph W) : Prop where
  neighbors : ∀ u, u ≠ id → g'.neighbors u = (g.neighbors u).filter (·.toId ≠ id)
  reverseNeighbors : ∀ u, u ≠ id →
    g'.reverseNeighbors u = (g.reverseNeighbors u).filter (·.toId ≠ id)
  noEdges : g'.neighbors id = [] ∧ g'.reverseNeighbors id = []
  noMeta : g'.nodeMeta id = none
  nodeMeta : ∀ u, u ≠ id → g'.nodeMeta u = g.nodeMeta u
  edges : arcs g'.adj = (arcs g.adj).filter (¬ Touches id ·)
  reverseEdges : arcs g'.radj = (arcs g.radj).filter (¬ Touches id ·)

/-- How many edges start or end at `id`. -/
def touching (g : DynamicGraph W) (id : Int) : Nat := ((arcs g.adj).filter (Touches id)).card

/-- The lists after both halves. -/
theorem removeNode_rows [DecidableEq W] (mirror : Mirrored g.adj g.radj) (id : Int) :
    (∀ u, (g.removeNode id).neighbors u =
      if u = id then [] else (g.neighbors u).filter (·.toId ≠ id)) ∧
    ∀ u, (g.removeNode id).reverseNeighbors u =
      if u = id then [] else (g.reverseNeighbors u).filter (·.toId ≠ id) := by
  obtain ⟨forward, backward⟩ := detach_rows mirror id g.edgeCount
  have mirror₁ := (detach_spec mirror id g.edgeCount).2.symm
  obtain ⟨backward', forward'⟩ := detach_rows mirror₁ id (detach id g.adj g.radj g.edgeCount).2.2
  constructor
  · intro u
    refine (forward' u).trans ?_
    rw [forward]
    split <;> rfl
  · intro u
    refine (backward' u).trans ?_
    rw [backward]
    rfl

/-- The edges that are left. -/
theorem removeNode_edges [DecidableEq W] (mirror : Mirrored g.adj g.radj) (id : Int) :
    arcs (g.removeNode id).adj = (arcs g.adj).filter (¬ Touches id ·) := by
  rw [(removeNode_spec mirror id).1]
  refine Multiset.filter_congr fun x _ => ?_
  rw [Touches, not_or, and_comm]

theorem withoutNode_removeNode [DecidableEq W] (mirror : Mirrored g.adj g.radj) (id : Int) :
    WithoutNode g id (g.removeNode id) := by
  obtain ⟨rows, reverseRows⟩ := removeNode_rows mirror id
  have mirror' := (removeNode_spec mirror id).2
  have edges := removeNode_edges mirror id
  constructor
  · intro u other
    rw [rows, if_neg other]
  · intro u other
    rw [reverseRows, if_neg other]
  · rw [rows, reverseRows, if_pos rfl, if_pos rfl]
    exact ⟨rfl, rfl⟩
  · exact UnorderedMap.find_erase_self g.nodes id
  · intro u other
    refine (UnorderedMap.find_erase g.nodes id u).trans ?_
    rw [if_neg other]
    rfl
  · exact edges
  · rw [show arcs (g.removeNode id).radj = _ from mirror', edges, show arcs g.radj = _ from mirror]
    refine (filter_flip (fun x => ?_) _).symm
    exact not_congr or_comm

/-- The counter goes down by the number of the edges that go, as an `int` does. -/
theorem edgeCount_removeNode [DecidableEq W] (mirror : Mirrored g.adj g.radj)
    (fits : IsInt g.edgeCount) (id : Int) :
    (g.removeNode id).edgeCount = toInt32 (g.edgeCount - g.touching id) := by
  have split : g.touching id + ((arcs g.adj).filter (¬ Touches id ·)).card = (arcs g.adj).card := by
    rw [touching, ← Multiset.card_add, Multiset.filter_add_not]
  rw [removeNode_counter mirror fits, removeNode_edges mirror]
  congr 1
  omega

/-- In every state that mutators lead to, `remove_node` removes the node and the edges that start
or end there, and nothing else, and the counter goes down by the number of those edges if and only
if that is still an `int`. -/
theorem removeNode_run_iff (ops : List (Op W)) (id : Int) :
    WithoutNode (run ops empty) id ((run ops empty).removeNode id) ∧
      (((run ops empty).removeNode id).edgeCount =
          (run ops empty).edgeCount - (run ops empty).touching id ↔
        -2 ^ 31 ≤ (run ops empty).edgeCount - (run ops empty).touching id) := by
  classical
  have mirror := mirrored_run (mirrored_empty : Mirrored (empty : DynamicGraph W).adj _) ops
  have fits := fits_run (W := W) ops
  refine ⟨withoutNode_removeNode mirror id, ?_⟩
  rw [edgeCount_removeNode mirror fits]
  constructor
  · intro exact'
    rw [← exact']
    exact (toInt32_range _).1
  · intro low
    have high := fits.2
    exact toInt32_of_range low (by omega)

/-- Two self-loops at 1, a parallel pair to 2 and an edge back: five edges go, one stays. -/
example : ((run [.addEdge 1 1 [] 0, .addEdge 1 1 [] 0, .addEdge 1 2 [] 0, .addEdge 1 2 [] 1,
    .addEdge 2 1 [] 0, .addEdge 2 3 [] 0] (empty : DynamicGraph Int)).removeNode 1).edgeCount = 1 := by
  decide

/-! ### Below the smallest `int` -/

/-- An edge from 3 to 4 is added and removed, `n` times. -/
def addsAndRemoves (weight : W) (n : Nat) : List (Op W) :=
  (List.replicate n [.addEdge 3 4 [] weight, .removeEdge 3 4 []]).flatten

/-- Each time the counter loses one, and the edges are as they were. -/
theorem run_addsAndRemoves [DecidableEq W] (mirror : Mirrored g.adj g.radj)
    (fits : IsInt g.edgeCount) (none : g.matching 3 4 [] = 0) (weight : W) (n : Nat) :
    arcs (g.run (addsAndRemoves weight n)).adj = arcs g.adj ∧
      (g.run (addsAndRemoves weight n)).edgeCount = toInt32 (g.edgeCount - n) := by
  induction n generalizing g with
  | zero => exact ⟨rfl, by simp [addsAndRemoves, run, fits.toInt32_eq]⟩
  | succ n ih =>
    obtain ⟨added, mirror₁⟩ := addEdge_spec mirror 3 4 [] weight
    obtain ⟨removed, mirror₂, counter⟩ := removeEdge_spec mirror₁ 3 4 []
    have found : matchesEdge 4 [] (⟨4, [], weight⟩ : Edge W) = true := decide_eq_true ⟨rfl, rfl⟩
    have nothing : ∀ x ∈ arcs g.adj, ¬ (x.1 = 3 ∧ matchesEdge 4 [] x.2 = true) := by
      rw [matching_eq_card, Multiset.card_eq_zero, Multiset.filter_eq_nil] at none
      exact none
    have one : (g.addEdge 3 4 [] weight).matching 3 4 [] = 1 := by
      rw [matching_eq_card, added, Multiset.filter_cons_of_pos _ ⟨rfl, found⟩,
        Multiset.filter_eq_nil.mpr nothing]
      rfl
    have back : arcs ((g.addEdge 3 4 [] weight).removeEdge 3 4 []).adj = arcs g.adj := by
      rw [removed, added, Multiset.filter_cons_of_neg _ fun stays => stays ⟨rfl, found⟩]
      exact Multiset.filter_eq_self.mpr nothing
    have none' : ((g.addEdge 3 4 [] weight).removeEdge 3 4 []).matching 3 4 [] = 0 := by
      rw [matching_eq_card, back, ← matching_eq_card, none]
    have lost : ((g.addEdge 3 4 [] weight).removeEdge 3 4 []).edgeCount =
        toInt32 (g.edgeCount - 1) := by
      have first : (g.addEdge 3 4 [] weight).edgeCount = toInt32 (g.edgeCount + 1) := rfl
      rw [counter, one, if_neg (by decide), first, toInt32_toInt32_sub]
      congr 1
      omega
    obtain ⟨same, falls⟩ := ih mirror₂ (lost ▸ toInt32_range _) none'
    refine ⟨same.trans back, falls.trans ?_⟩
    rw [lost, toInt32_toInt32_sub]
    congr 1
    omega

/-- With one edge left the counter can be anything. -/
theorem edgeCount_after_addsAndRemoves (n : Nat) :
    let g := run (.addEdge 1 2 [] 0 :: addsAndRemoves 0 n) (empty : DynamicGraph UInt32)
    g.touching 1 = 1 ∧ g.edgeCount = toInt32 (1 - n) ∧
      (g.removeNode 1).edgeCount = toInt32 (toInt32 (1 - n) - 1) := by
  intro g
  have mirror : Mirrored g.adj g.radj := mirrored_run mirrored_empty _
  obtain ⟨edges, counter⟩ := run_addsAndRemoves
    (addEdge_spec (g := (empty : DynamicGraph UInt32)) mirrored_empty 1 2 [] 0).2
    ⟨by decide, by decide⟩ (by decide) 0 n
  have one : g.touching 1 = 1 := by
    rw [touching, show arcs g.adj = _ from edges]
    decide
  have left : g.edgeCount = toInt32 (1 - n) := counter
  refine ⟨one, left, ?_⟩
  rw [edgeCount_removeNode mirror (left ▸ toInt32_range _), one, left]
  rfl

/-- Here it is the smallest `int`, and removing a node of the edge makes it the largest. -/
theorem edgeCount_underflow :
    let g := run (.addEdge 1 2 [] 0 :: addsAndRemoves 0 (2 ^ 31 + 1)) (empty : DynamicGraph UInt32)
    g.touching 1 = 1 ∧ g.edgeCount = -2 ^ 31 ∧ (g.removeNode 1).edgeCount = 2 ^ 31 - 1 := by
  have low : toInt32 (1 - (2 ^ 31 + 1 : Nat)) = -2 ^ 31 := by decide
  obtain ⟨one, counter, removed⟩ := edgeCount_after_addsAndRemoves (2 ^ 31 + 1)
  rw [low] at counter removed
  exact ⟨one, counter, removed.trans (by decide)⟩

end

end FastGraph.DynamicGraph
