import FastGraph.Graph.DynamicGraph
import FastGraph.Misc.Stream

/-!
# The two directions of the edges

What the graph stores is a multiset of arcs, a pair of a source and an edge. The reverse
adjacency is its mirror image in every state a run of mutators reaches, and every mutator
is an operation on the multiset. The edge counter is compared with its size; it is an `int`, so
what is known of it is known in the range of `int`.
-/

namespace FastGraph.DynamicGraph
open Adjacency

section
variable {W : Type} {g : DynamicGraph W} {walked other : AdjMap W}

/-- The same edge seen from its other end. -/
def flip (x : Int × Edge W) : Int × Edge W := (x.2.toId, { x.2 with toId := x.1 })

@[simp] theorem flip_flip (x : Int × Edge W) : flip (flip x) = x := rfl

theorem flip_injective : Function.Injective (flip : Int × Edge W → Int × Edge W) :=
  Function.LeftInverse.injective flip_flip

/-- One map holds the arcs of the other, seen from the other end. -/
def Mirrored (walked other : AdjMap W) : Prop := arcs other = (arcs walked).map flip

theorem Mirrored.symm (mirror : Mirrored walked other) : Mirrored other walked := by
  unfold Mirrored at mirror ⊢
  rw [mirror, Multiset.map_map]
  exact (Multiset.map_id _).symm

/-- Filters that see the two ends of an edge in turn keep the mirror image. -/
theorem filter_flip {p q : Int × Edge W → Prop} [DecidablePred p] [DecidablePred q]
    (same : ∀ x, q (flip x) ↔ p x) (S : Multiset (Int × Edge W)) :
    (S.map flip).filter q = (S.filter p).map flip := by
  rw [Multiset.filter_map]
  congr 1
  exact Multiset.filter_congr fun x _ => same x

/-! ### remove_node -/

/-- The loop of `remove_node`: the lists at the other ends lose their edges to `id`. -/
theorem row_foldl_detachEdge (id : Int) (edges : List (Edge W)) (other : AdjMap W) (c b : Int) :
    row (edges.foldl (detachEdge id) (other, c)).1 b =
      if b ∈ edges.map Edge.toId then (row other b).filter (·.toId ≠ id) else row other b := by
  induction edges generalizing other c with
  | nil => simp
  | cons e edges ih =>
    rw [List.foldl_cons, detachEdge, ih, row_set]
    by_cases here : b = e.toId
    · subst here
      simp [List.filter_filter]
    · simp [here]

/-- The counter goes down by one in every iteration. -/
theorem counter_foldl_detachEdge (id : Int) (edges : List (Edge W)) (other : AdjMap W) {c : Int}
    (fits : IsInt c) :
    (edges.foldl (detachEdge id) (other, c)).2 = toInt32 (c - edges.length) := by
  induction edges generalizing other c with
  | nil => simp [fits.toInt32_eq]
  | cons e edges ih =>
    rw [List.foldl_cons, detachEdge, ih _ (toInt32_range (c - 1)), toInt32_toInt32_sub,
      List.length_cons]
    congr 1
    omega

/-- Each half of `remove_node` counts the length of the list of `id` off. -/
theorem detach_counter (id : Int) (walked other : AdjMap W) {c : Int} (fits : IsInt c) :
    (detach id walked other c).2.2 = toInt32 (c - (row walked id).length) := by
  unfold detach
  cases found : walked.find id with
  | none => simp [row, found, fits.toInt32_eq]
  | some edges =>
    rw [show row walked id = edges by simp [row, found]]
    exact counter_foldl_detachEdge id edges other fits

variable [DecidableEq W]

theorem Mirrored.count (mirror : Mirrored walked other) (a b : Int) (rel : Bytes) (w : W) :
    (row walked a).count ⟨b, rel, w⟩ = (row other b).count ⟨a, rel, w⟩ := by
  rw [← count_arcs, ← count_arcs, mirror]
  exact (Multiset.count_map_eq_count' flip _ flip_injective (a, ⟨b, rel, w⟩)).symm

/-- Each half of `remove_node` empties the list of `id` in one direction and takes the edges to
`id` out of all lists of the other. -/
theorem detach_rows (mirror : Mirrored walked other) (id c : Int) :
    (∀ a, row (detach id walked other c).1 a = if a = id then [] else row walked a) ∧
      ∀ b, row (detach id walked other c).2.1 b = (row other b).filter (·.toId ≠ id) := by
  have back : ∀ b, b ∉ (row walked id).map Edge.toId →
      (row other b).filter (·.toId ≠ id) = row other b := by
    intro b notHere
    rw [List.filter_eq_self]
    intro e mem
    rw [decide_eq_true_iff]
    rintro rfl
    have paired := mirror.count e.toId b e.relType e.weight
    have seen : e ∈ row other b := mem
    rw [← List.count_pos_iff, ← paired, List.count_pos_iff] at seen
    exact notHere (List.mem_map.mpr ⟨_, seen, rfl⟩)
  unfold detach
  cases found : walked.find id with
  | none =>
    have nothing : row walked id = [] := by simp [row, found]
    constructor
    · intro a
      by_cases same : a = id
      · rw [if_pos same, same, nothing]
      · rw [if_neg same]
    · intro b
      exact (back b (by simp [nothing])).symm
  | some edges =>
    have list : row walked id = edges := by simp [row, found]
    refine ⟨row_erase walked id, ?_⟩
    intro b
    rw [row_foldl_detachEdge]
    split
    · rfl
    · rename_i notHere
      rw [back b (by rwa [list])]

/-- Each half of `remove_node` takes the arcs from `id` out of both directions. -/
theorem detach_spec (mirror : Mirrored walked other) (id c : Int) :
    arcs (detach id walked other c).1 = (arcs walked).filter (·.1 ≠ id) ∧
      Mirrored (detach id walked other c).1 (detach id walked other c).2.1 := by
  obtain ⟨rows, rows'⟩ := detach_rows mirror id c
  have left : arcs (detach id walked other c).1 = (arcs walked).filter (·.1 ≠ id) := by
    rw [← arcs_erase]
    apply arcs_congr
    intro a
    rw [rows, row_erase]
  refine ⟨left, ?_⟩
  unfold Mirrored
  rw [arcs_of_rows_filter rows', left, mirror]
  exact filter_flip (fun x => decide_eq_true_iff) _

/-- `remove_node` takes the arcs with an end at `id` out of both directions, first those from it and
then those to it. -/
theorem removeNode_spec (mirror : Mirrored g.adj g.radj) (id : Int) :
    arcs (g.removeNode id).adj = (arcs g.adj).filter (fun x => x.2.toId ≠ id ∧ x.1 ≠ id) ∧
      Mirrored (g.removeNode id).adj (g.removeNode id).radj := by
  obtain ⟨forward, mirror₁⟩ := detach_spec mirror id g.edgeCount
  obtain ⟨backward, mirror₂⟩ := detach_spec mirror₁.symm id (detach id g.adj g.radj g.edgeCount).2.2
  refine ⟨?_, mirror₂.symm⟩
  rw [show arcs (g.removeNode id).adj = (arcs (g.removeNode id).radj).map flip from mirror₂,
    show arcs (g.removeNode id).radj = _ from backward, mirror₁,
    filter_flip (p := fun x => x.2.toId ≠ id) (fun x => Iff.rfl), Multiset.map_map, forward,
    Multiset.filter_filter]
  exact Multiset.map_id _

/-- The counter of `remove_node` goes down by what leaves the forward adjacency. -/
theorem removeNode_counter (mirror : Mirrored g.adj g.radj) (fits : IsInt g.edgeCount)
    (id : Int) :
    (g.removeNode id).edgeCount =
      toInt32 (g.edgeCount - ((arcs g.adj).card - (arcs (g.removeNode id).adj).card)) := by
  have counter₁ := detach_counter id g.adj g.radj fits
  have fits₁ : IsInt (detach id g.adj g.radj g.edgeCount).2.2 := counter₁ ▸ toInt32_range _
  have counter₂ := detach_counter id (detach id g.adj g.radj g.edgeCount).2.1
    (detach id g.adj g.radj g.edgeCount).1 fits₁
  -- the second half finds the edges to the node that do not start there
  have outgoing : (row g.adj id).length = ((arcs g.adj).filter (·.1 = id)).card := by
    simpa using (card_filter_arcs g.adj id fun _ => true).symm
  have incoming : (row (detach id g.adj g.radj g.edgeCount).2.1 id).length =
      (((arcs g.adj).filter (·.1 ≠ id)).filter (·.2.toId = id)).card := by
    obtain ⟨forward, mirror₁⟩ := detach_spec mirror id g.edgeCount
    rw [← forward, ← Multiset.card_map flip,
      ← filter_flip (p := fun x => x.2.toId = id) (q := fun x => x.1 = id) (fun x => Iff.rfl),
      ← mirror₁]
    simpa using (card_filter_arcs (detach id g.adj g.radj g.edgeCount).2.1 id fun _ => true).symm
  have first : ((arcs g.adj).filter (·.1 = id)).card + ((arcs g.adj).filter (·.1 ≠ id)).card =
      (arcs g.adj).card := by
    rw [← Multiset.card_add, Multiset.filter_add_not]
  have second : (((arcs g.adj).filter (·.1 ≠ id)).filter (·.2.toId = id)).card +
      (arcs (g.removeNode id).adj).card = ((arcs g.adj).filter (·.1 ≠ id)).card := by
    rw [(removeNode_spec mirror id).1, ← Multiset.filter_filter, ← Multiset.card_add,
      Multiset.filter_add_not]
  refine counter₂.trans ?_
  rw [counter₁, toInt32_toInt32_sub, outgoing, incoming]
  congr 1
  omega

/-! ### The other mutators -/

omit [DecidableEq W] in
theorem row_addNode (m : AdjMap W) (id a : Int) :
    row (if (m.find id).isNone then m.set id [] else m) a = row m a := by
  split
  · rename_i absent
    rw [row_set]
    split
    · rename_i same
      rw [same, row, Option.isNone_iff_eq_none.mp absent]
      rfl
    · rfl
  · rfl

theorem addNode_spec (mirror : Mirrored g.adj g.radj) (id : Int) (labelPtr : CharPtr)
    (props : Bytes) :
    arcs (g.addNode id labelPtr props).adj = arcs g.adj ∧
      Mirrored (g.addNode id labelPtr props).adj (g.addNode id labelPtr props).radj := by
  have forward : arcs (g.addNode id labelPtr props).adj = arcs g.adj :=
    arcs_congr (row_addNode g.adj id)
  have backward : arcs (g.addNode id labelPtr props).radj = arcs g.radj :=
    arcs_congr (row_addNode g.radj id)
  refine ⟨forward, ?_⟩
  unfold Mirrored
  rw [forward, backward]
  exact mirror

theorem addEdge_spec (mirror : Mirrored g.adj g.radj) (fromId toId : Int) (rel : Bytes) (w : W) :
    arcs (g.addEdge fromId toId rel w).adj = (fromId, ⟨toId, rel, w⟩) ::ₘ arcs g.adj ∧
      Mirrored (g.addEdge fromId toId rel w).adj (g.addEdge fromId toId rel w).radj := by
  have forward := arcs_set_append g.adj fromId ⟨toId, rel, w⟩
  have backward := arcs_set_append g.radj toId ⟨fromId, rel, w⟩
  refine ⟨forward, ?_⟩
  unfold Mirrored
  rw [show arcs (g.addEdge fromId toId rel w).adj = _ from forward,
    show arcs (g.addEdge fromId toId rel w).radj = _ from backward, Multiset.map_cons, mirror]
  rfl

/-- How many edges from `fromId` to `toId` of the type `rel` there are. -/
def matching (g : DynamicGraph W) (fromId toId : Int) (rel : Bytes) : Nat :=
  (g.neighbors fromId).countP (matchesEdge toId rel)

theorem matching_eq_card (g : DynamicGraph W) (fromId toId : Int) (rel : Bytes) :
    g.matching fromId toId rel =
      ((arcs g.adj).filter fun x => x.1 = fromId ∧ matchesEdge toId rel x.2 = true).card :=
  (card_filter_arcs g.adj fromId (matchesEdge toId rel)).symm

omit [DecidableEq W] in
/-- The lambda of `remove_edge` takes out all matching edges and, if there are any, counts
one. -/
theorem removeFrom_eq (target : Int) (rel : Bytes) (v : List (Edge W)) (c : Int) :
    removeFrom target rel v c = (v.filter fun e => !matchesEdge target rel e,
      if v.countP (matchesEdge target rel) = 0 then c else toInt32 (c - 1)) := by
  unfold removeFrom
  by_cases some : v.any (matchesEdge target rel) = true
  · rw [if_pos some, if_neg]
    rw [List.countP_eq_zero]
    simpa using some
  · have none : ∀ e ∈ v, matchesEdge target rel e = false := by simpa using some
    rw [if_neg some, if_pos (List.countP_eq_zero.mpr fun e mem => by simp [none e mem]),
      List.filter_eq_self.mpr fun e mem => by simp [none e mem]]

omit [DecidableEq W] in
theorem matchesEdge_flip (a b : Int) (rel : Bytes) (x : Int × Edge W) :
    (flip x).1 = b ∧ matchesEdge a rel (flip x).2 = true ↔
      x.1 = a ∧ matchesEdge b rel x.2 = true := by
  unfold matchesEdge
  rw [decide_eq_true_iff, decide_eq_true_iff]
  exact and_left_comm

/-- Both directions hold equally many matching edges. -/
theorem Mirrored.countP (mirror : Mirrored walked other) (a b : Int) (rel : Bytes) :
    (row other b).countP (matchesEdge a rel) = (row walked a).countP (matchesEdge b rel) := by
  rw [← card_filter_arcs, ← card_filter_arcs, mirror, filter_flip (matchesEdge_flip a b rel),
    Multiset.card_map]

theorem removeEdge_spec (mirror : Mirrored g.adj g.radj) (fromId toId : Int) (rel : Bytes) :
    arcs (g.removeEdge fromId toId rel).adj =
        (arcs g.adj).filter (fun x => ¬ (x.1 = fromId ∧ matchesEdge toId rel x.2)) ∧
      Mirrored (g.removeEdge fromId toId rel).adj (g.removeEdge fromId toId rel).radj ∧
      (g.removeEdge fromId toId rel).edgeCount =
        if g.matching fromId toId rel = 0 then g.edgeCount else toInt32 (g.edgeCount - 2) := by
  have same := mirror.countP fromId toId rel
  have forward := arcs_set_filter g.adj fromId (matchesEdge toId rel)
  have backward := arcs_set_filter g.radj toId (matchesEdge fromId rel)
  have result : g.removeEdge fromId toId rel = { g with
      adj := g.adj.set fromId ((row g.adj fromId).filter fun e => !matchesEdge toId rel e)
      radj := g.radj.set toId ((row g.radj toId).filter fun e => !matchesEdge fromId rel e)
      edgeCount :=
        if g.matching fromId toId rel = 0 then g.edgeCount else toInt32 (g.edgeCount - 2)
      dirty := true } := by
    have here : (row g.adj fromId).countP (matchesEdge toId rel) = g.matching fromId toId rel := rfl
    simp only [removeEdge, removeFrom_eq, same, here]
    congr 1
    by_cases none : g.matching fromId toId rel = 0
    · simp only [if_pos none]
    · simp only [if_neg none, toInt32_toInt32_sub, Int.sub_sub]
      rfl
  rw [result]
  refine ⟨forward, ?_, rfl⟩
  unfold Mirrored
  dsimp only
  rw [forward, backward, mirror,
    filter_flip fun x => not_congr (matchesEdge_flip fromId toId rel x)]

/-! ### Runs -/

omit [DecidableEq W] in
theorem mirrored_empty : Mirrored (empty : DynamicGraph W).adj (empty : DynamicGraph W).radj := rfl

theorem mirrored_apply (mirror : Mirrored g.adj g.radj) (op : Op W) :
    Mirrored (g.apply op).adj (g.apply op).radj := by
  cases op with
  | addNode id labelPtr props => exact (addNode_spec mirror id labelPtr props).2
  | removeNode id => exact (removeNode_spec mirror id).2
  | addEdge fromId toId rel weight => exact (addEdge_spec mirror fromId toId rel weight).2
  | removeEdge fromId toId rel => exact (removeEdge_spec mirror fromId toId rel).2.1

theorem mirrored_run (mirror : Mirrored g.adj g.radj) (ops : List (Op W)) :
    Mirrored (g.run ops).adj (g.run ops).radj := by
  induction ops generalizing g with
  | nil => exact mirror
  | cons op ops ih => exact ih (mirrored_apply mirror op)

/-- After every sequence of mutators the forward and the reverse adjacency are transposes of
each other as multisets. -/
theorem count_neighbors_run (ops : List (Op W)) (a b : Int) (rel : Bytes) (w : W) :
    (((empty : DynamicGraph W).run ops).neighbors a).count ⟨b, rel, w⟩ =
      (((empty : DynamicGraph W).run ops).reverseNeighbors b).count ⟨a, rel, w⟩ :=
  (mirrored_run mirrored_empty ops).count a b rel w

/-! ### The edge counter -/

/-- The number of edges in the forward adjacency: the sum of the lengths of its lists. -/
def edgeTotal (g : DynamicGraph W) : Nat := ((g.adj.toList).map fun r => r.2.length).sum

omit [DecidableEq W] in
theorem edgeTotal_eq (g : DynamicGraph W) : g.edgeTotal = (arcs g.adj).card :=
  (card_arcs g.adj).symm

omit [DecidableEq W] in
/-- The counter is an `int` after every mutation. -/
theorem fits_apply (fits : IsInt g.edgeCount) (op : Op W) : IsInt (g.apply op).edgeCount := by
  cases op with
  | addNode id labelPtr props => exact fits
  | removeNode id =>
    have first := detach_counter id g.adj g.radj fits
    have second := detach_counter id (detach id g.adj g.radj g.edgeCount).2.1
      (detach id g.adj g.radj g.edgeCount).1 (first ▸ toInt32_range _)
    exact (show (g.apply (.removeNode id)).edgeCount = _ from second) ▸ toInt32_range _
  | addEdge fromId toId rel weight => exact toInt32_range _
  | removeEdge fromId toId rel =>
    simp only [apply, removeEdge, removeFrom_eq]
    split
    · split
      · exact fits
      · exact toInt32_range _
    · exact toInt32_range _

omit [DecidableEq W] in
theorem fits_run (ops : List (Op W)) : IsInt ((empty : DynamicGraph W).run ops).edgeCount := by
  induction ops using List.reverseRecOn with
  | nil => exact toInt32_range 0
  | append_singleton ops op ih =>
    rw [run, List.foldl_append]
    exact fits_apply ih op

/-- What a mutation has to find for the counter to go with the edges: `remove_edge` counts two for
whatever it removes, and `add_edge` has no number after the largest `int`. -/
def KeepsCount (g : DynamicGraph W) : Op W → Prop
  | .addNode _ _ _ => True
  | .removeNode _ => True
  | .addEdge _ _ _ _ => g.edgeTotal < 2 ^ 31 - 1
  | .removeEdge fromId toId rel => g.matching fromId toId rel = 0 ∨ g.matching fromId toId rel = 2

/-- One step from a graph whose counter is right. -/
theorem edgeCount_apply_iff (mirror : Mirrored g.adj g.radj) (fits : IsInt g.edgeCount)
    (right : g.edgeCount = g.edgeTotal) (op : Op W) :
    (g.apply op).edgeCount = (g.apply op).edgeTotal ↔ g.KeepsCount op := by
  have high := fits.2
  rw [edgeTotal_eq] at right ⊢
  cases op with
  | addNode id labelPtr props =>
    rw [show arcs (g.apply (.addNode id labelPtr props)).adj = arcs g.adj from
      (addNode_spec mirror id labelPtr props).1]
    exact iff_of_true right trivial
  | removeNode id =>
    have fewer : (arcs (g.removeNode id).adj).card ≤ (arcs g.adj).card := by
      rw [(removeNode_spec mirror id).1]
      exact Multiset.card_le_card (Multiset.filter_le _ _)
    refine iff_of_true ?_ trivial
    rw [show g.apply (.removeNode id) = g.removeNode id from rfl, removeNode_counter mirror fits,
      toInt32_of_range (by omega) (by omega)]
    omega
  | addEdge fromId toId rel weight =>
    have more : (arcs (g.apply (.addEdge fromId toId rel weight)).adj).card =
        (arcs g.adj).card + 1 := by
      rw [show arcs (g.apply (.addEdge fromId toId rel weight)).adj = _ from
        (addEdge_spec mirror fromId toId rel weight).1, Multiset.card_cons]
    have counter : (g.apply (.addEdge fromId toId rel weight)).edgeCount =
        toInt32 (g.edgeCount + 1) := rfl
    rw [more, counter, KeepsCount, edgeTotal_eq]
    constructor
    · intro same
      have := (toInt32_range (g.edgeCount + 1)).2
      omega
    · intro room
      rw [toInt32_of_range (by omega) (by omega)]
      omega
  | removeEdge fromId toId rel =>
    obtain ⟨forward, -, counter⟩ := removeEdge_spec mirror fromId toId rel
    have split : ((arcs g.adj).filter fun x => x.1 = fromId ∧ matchesEdge toId rel x.2).card +
        ((arcs g.adj).filter fun x => ¬ (x.1 = fromId ∧ matchesEdge toId rel x.2)).card =
        (arcs g.adj).card := by
      rw [← Multiset.card_add, Multiset.filter_add_not]
    have taken := matching_eq_card g fromId toId rel
    rw [show g.apply (.removeEdge fromId toId rel) = g.removeEdge fromId toId rel from rfl,
      forward, counter, KeepsCount]
    rw [toInt32_of_range (by omega) (by omega)]
    split <;> omega

/-- In every state of a run the counter is the number of stored edges, if and only if every
`remove_edge` of the run finds no matching edge or exactly two and every `add_edge` fewer edges than
the largest `int`. -/
theorem edgeCount_run_iff (ops : List (Op W)) :
    (∀ pre, pre <+: ops → ((empty : DynamicGraph W).run pre).edgeCount =
      ((empty : DynamicGraph W).run pre).edgeTotal) ↔
    ∀ pre op, pre ++ [op] <+: ops → ((empty : DynamicGraph W).run pre).KeepsCount op := by
  apply forall_prefix_iff
  · rfl
  · intro pre op right
    have next : (empty : DynamicGraph W).run (pre ++ [op]) =
        ((empty : DynamicGraph W).run pre).apply op := by
      simp [run]
    rw [next]
    exact edgeCount_apply_iff (mirrored_run mirrored_empty pre) (fits_run pre) right op

/-- Adding an edge and removing it again leaves no edge and a counter of `-1`. -/
theorem edgeCount_after_add_remove :
    ((empty : DynamicGraph UInt32).run
        [.addEdge 1 2 (str "r") 0x3F800000, .removeEdge 1 2 (str "r")]).edgeCount = -1 ∧
      ((empty : DynamicGraph UInt32).run
        [.addEdge 1 2 (str "r") 0x3F800000, .removeEdge 1 2 (str "r")]).edgeTotal = 0 := by
  decide

end

end FastGraph.DynamicGraph
