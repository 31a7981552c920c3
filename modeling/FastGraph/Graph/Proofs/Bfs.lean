import FastGraph.Graph.Bfs
import FastGraph.Graph.Proofs.GraphEngine
import FastGraph.Misc.BreadthFirst

/-!
# The indices of breadth-first search

The arrays of `bfs_path` have an element for every id from 0 to the largest id of a node
added so far, but neither the source nor the ends of the edges are compared with these
bounds. The call stays inside the arrays exactly if the source and the ends of the walks
that a breadth-first search lists before it finds the target do.
-/

namespace FastGraph.BfsArrays
open BreadthFirst

variable {W : Type} {g : DynamicGraph W} {n : Nat} {a a' : BfsArrays} {Q E P : List Int}
  {rel : Bytes} {source target : Int} {met : Int → Int → Prop}

/-- The edges that the relation filter lets through. -/
def passes (rel : Bytes) (edge : Edge W) : Bool := decide (rel = [] ∨ edge.relType = rel)

/-- Where the edges of a node lead that the relation filter lets through. -/
def successors (g : DynamicGraph W) (rel : Bytes) (u : Int) : List Int :=
  ((g.neighbors u).filter (passes rel)).map Edge.toId

/-- Without a filter all edges pass. -/
theorem filter_passes_nil (edges : List (Edge W)) : edges.filter (passes []) = edges := by
  rw [List.filter_eq_self]
  intro edge _
  exact decide_eq_true (Or.inl rfl)

theorem successors_nil (g : DynamicGraph W) (u : Int) :
    successors g [] u = (g.neighbors u).map Edge.toId := by
  rw [successors, filter_passes_nil]

/-- The elements of `Q` lead back to the source, each to an earlier one that has met it. -/
def Chained (met : Int → Int → Prop) (source : Int) (a : BfsArrays) (Q : List Int) : Prop :=
  ∀ (j : Nat) x, Q[j]? = some x → x = source ∧ vget a.parent x = some (some (-1)) ∨
    ∃ (i : Nat) (y : Int) (via : Bytes), i < j ∧ Q[i]? = some y ∧ met y x ∧
      vget a.parent x = some (some y) ∧ vget a.viaRel x = some (some via)

/-- The arrays have `n` elements and hold what a search has found that has put `Q` into the
queue. -/
structure Holds (met : Int → Int → Prop) (source : Int) (n : Nat) (a : BfsArrays) (Q : List Int) :
    Prop where
  lengths : a.parent.length = n ∧ a.viaRel.length = n ∧ a.visited.length = n ∧ a.queue.length = n
  inside : ∀ x ∈ Q, 0 ≤ x ∧ x < n
  distinct : Q.Nodup
  visited : ∀ i, 0 ≤ i → i < (n : Int) → vget a.visited i = some (decide (i ∈ Q))
  queued : ∀ (j : Nat) x, Q[j]? = some x → vget a.queue j = some (some x)
  tail : a.tail = Q.length
  chained : Chained met source a Q

/-- The target was found, and a chain of at most `n` nodes leads back from it. -/
def Traced (met : Int → Int → Prop) (source : Int) (n : Nat) (a : BfsArrays) (target : Int) : Prop :=
  ∃ Q : List Int, Q.length < n ∧ (∀ x ∈ Q ++ [target], 0 ≤ x) ∧ Chained met source a (Q ++ [target])

/-- Marking one more element keeps the chains of the others. -/
theorem Chained.mark (chained : Chained met source a Q) {x node : Int} {via : Bytes}
    {parent : List (Option Int)} {viaRel : List (Option Bytes)} (new : x ∉ Q) (known : node ∈ Q)
    (first : met node x)
    (stored : vset a.parent x (some node) = some parent)
    (stored' : vset a.viaRel x (some via) = some viaRel)
    (parents : a'.parent = parent) (vias : a'.viaRel = viaRel) :
    Chained met source a' (Q ++ [x]) := by
  intro j y here
  rw [parents, vias, vget_vset stored, vget_vset stored']
  rcases getElem?_concat_cases here with ⟨before, old⟩ | ⟨rfl, rfl⟩
  · have other : y ≠ x := by
      rintro rfl
      exact new (List.mem_of_getElem? old)
    rw [if_neg other, if_neg other]
    rcases chained j y old with root | ⟨i, z, via', earlier, there, first', parent', viaRel'⟩
    · exact Or.inl root
    · refine Or.inr ⟨i, z, via', earlier, ?_, first', parent', viaRel'⟩
      rw [List.getElem?_append_left (by omega)]
      exact there
  · obtain ⟨i, inside, at_⟩ := List.mem_iff_getElem.mp known
    rw [if_pos rfl, if_pos rfl]
    refine Or.inr ⟨i, node, via, inside, ?_, first, rfl, rfl⟩
    rw [List.getElem?_append_left inside, List.getElem?_eq_getElem inside, at_]

/-- What is in the queue is less than the arrays have room for, if one more id is. -/
theorem Holds.room (holds : Holds met source n a Q) {x : Int} (new : x ∉ Q) (low : 0 ≤ x) (high : x < n) :
    Q.length < n := by
  have longer : (Q ++ [x]).Nodup := by
    rw [List.nodup_append]
    refine ⟨holds.distinct, List.nodup_singleton x, ?_⟩
    intro y mem z same
    rw [List.mem_singleton] at same
    rintro rfl
    exact new (same ▸ mem)
  have few := length_le_of_nodup (m := n) longer (by
    intro y mem
    rcases List.mem_append.mp mem with old | last
    · exact holds.inside y old
    · rw [List.mem_singleton] at last
      subst last
      exact ⟨low, high⟩)
  rw [List.length_append, List.length_singleton] at few
  omega

/-- An edge that the filter does not let through. -/
theorem visitEdge_filtered {node : Int} {edge : Edge W} (filtered : ¬ passes rel edge) :
    visitEdge rel target node a edge = Outcome.returned (a, false) := by
  rw [passes, decide_eq_true_iff, not_or] at filtered
  exact if_pos filtered

theorem visitEdge_eq {node : Int} {edge : Edge W} (matching : passes rel edge) :
    visitEdge rel target node a edge = (do
      let seen ← aget a.visited edge.toId
      if seen then pure (a, false)
      else do
        let visited ← aset a.visited edge.toId true
        let parent ← aset a.parent edge.toId (some node)
        let viaRel ← aset a.viaRel edge.toId (some edge.relType)
        let a := { a with visited := visited, parent := parent, viaRel := viaRel }
        if edge.toId = target then pure (a, true)
        else do
          let a ← a.enqueue edge.toId
          pure (a, false)) := by
  rw [passes, decide_eq_true_iff] at matching
  exact if_neg (by grind)

/-- An edge to an id outside the arrays. -/
theorem visitEdge_outside (holds : Holds met source n a Q) {node : Int} {edge : Edge W}
    (matching : passes rel edge) (outside : ¬ (0 ≤ edge.toId ∧ edge.toId < n)) :
    visitEdge rel target node a edge = Outcome.threw ⟨edge.toId⟩ := by
  have read : aget a.visited edge.toId = Outcome.threw ⟨edge.toId⟩ :=
    aget_outside (by rw [holds.lengths.2.2.1]; exact outside)
  rw [visitEdge_eq matching, read, Outcome.threw_bind]

/-- An edge to a node that was found before. -/
theorem visitEdge_old (holds : Holds met source n a Q) {node : Int} {edge : Edge W}
    (matching : passes rel edge) (old : edge.toId ∈ Q) :
    visitEdge rel target node a edge = Outcome.returned (a, false) := by
  obtain ⟨low, high⟩ := holds.inside _ old
  have read := holds.visited _ low high
  rw [decide_eq_true old] at read
  rw [visitEdge_eq matching, aget_eq read, Outcome.returned_bind, if_pos rfl]
  rfl

/-- An edge to a node that was not found before. -/
theorem visitEdge_new (target : Int) (holds : Holds met source n a Q) {node : Int} {edge : Edge W}
    (matching : passes rel edge) (known : node ∈ Q) (low : 0 ≤ edge.toId) (high : edge.toId < n)
    (new : edge.toId ∉ Q) (first : met node edge.toId) :
    (edge.toId = target → ∃ a', visitEdge rel target node a edge = Outcome.returned (a', true) ∧
      Traced met source n a' target) ∧
    (edge.toId ≠ target → ∃ a', visitEdge rel target node a edge = Outcome.returned (a', false) ∧
      a'.head = a.head ∧ Holds met source n a' (Q ++ [edge.toId])) := by
  obtain ⟨length₁, length₂, length₃, length₄⟩ := holds.lengths
  have room := holds.room new low high
  have read := holds.visited _ low high
  rw [decide_eq_false new] at read
  obtain ⟨visited, stored₃⟩ := vset_isSome (v := a.visited) low (by omega) true
  obtain ⟨parent, stored₁⟩ := vset_isSome (v := a.parent) low (by omega) (some node)
  obtain ⟨viaRel, stored₂⟩ := vset_isSome (v := a.viaRel) low (by omega) (some edge.relType)
  obtain ⟨queue, stored₄⟩ := vset_isSome (v := a.queue) (i := a.tail) (by rw [holds.tail]; omega)
    (by rw [holds.tail]; omega) (some edge.toId)
  have unfolded : visitEdge rel target node a edge =
      if edge.toId = target then
        Outcome.returned ({ a with visited := visited, parent := parent, viaRel := viaRel }, true)
      else Outcome.returned ({ a with
        visited := visited
        parent := parent
        viaRel := viaRel
        queue := queue
        tail := a.tail + 1 }, false) := by
    rw [visitEdge_eq matching, aget_eq read, Outcome.returned_bind, if_neg (by decide),
      aset_eq stored₃, Outcome.returned_bind, aset_eq stored₁, Outcome.returned_bind,
      aset_eq stored₂, Outcome.returned_bind]
    split
    · rfl
    · simp only [enqueue, aset_eq stored₄]
      rfl
  constructor
  · intro found
    rw [if_pos found] at unfolded
    refine ⟨_, unfolded, Q, room, ?_, ?_⟩
    · intro x mem
      rcases List.mem_append.mp mem with old | last
      · exact (holds.inside x old).1
      · rw [List.mem_singleton.mp last, ← found]
        exact low
    · rw [← found]
      exact holds.chained.mark new known first stored₁ stored₂ rfl rfl
  · intro other
    rw [if_neg other] at unfolded
    refine ⟨_, unfolded, rfl, ⟨(length_vset stored₁).trans length₁,
      (length_vset stored₂).trans length₂, (length_vset stored₃).trans length₃,
      (length_vset stored₄).trans length₄⟩, ?_, ?_, ?_, ?_, ?_,
      holds.chained.mark new known first stored₁ stored₂ rfl rfl⟩
    · intro x mem
      rcases List.mem_append.mp mem with old | last
      · exact holds.inside x old
      · rw [List.mem_singleton.mp last]
        exact ⟨low, high⟩
    · rw [← List.concat_eq_append]
      exact holds.distinct.concat new
    · intro i low' high'
      rw [vget_vset stored₃]
      by_cases here : i = edge.toId
      · simp [here]
      · rw [if_neg here, holds.visited i low' high']
        simp [here]
    · rw [holds.tail] at stored₄
      exact vget_of_concat holds.queued stored₄
    · rw [List.length_append, List.length_singleton]
      push_cast
      rw [holds.tail]

/-- Where the edges of a list lead that the filter lets through. -/
def leads (rel : Bytes) (edges : List (Edge W)) : List Int :=
  (edges.filter (passes rel)).map Edge.toId

/-- What the loop over the edges of a node does: it leaves the arrays at the first id outside
them that comes no later than the target, or it finds the target, or it queues what is new. -/
structure Visited (met : Int → Int → Prop) (source : Int) (n : Nat) (a : BfsArrays)
    (Q xs : List Int) (target : Int) (outcome : Outcome OutOfBounds (BfsArrays × Bool)) : Prop where
  leaves : ¬ (∀ x ∈ upTo target xs, 0 ≤ x ∧ x < (n : Int)) → ∃ i, outcome = Outcome.threw i
  finds : (∀ x ∈ upTo target xs, 0 ≤ x ∧ x < (n : Int)) → target ∈ xs →
    ∃ a', outcome = Outcome.returned (a', true) ∧ Traced met source n a' target
  queues : (∀ x ∈ upTo target xs, 0 ≤ x ∧ x < (n : Int)) → target ∉ xs →
    ∃ a', outcome = Outcome.returned (a', false) ∧ a'.head = a.head ∧ Holds met source n a' (Q ++ firsts Q xs)

theorem visitEdges_spec (rel : Bytes) (edges : List (Edge W)) {node : Int} (holds : Holds met source n a Q)
    (known : node ∈ Q) (unfound : target ∉ Q)
    (meets : ∀ x ∈ leads rel edges, x ∉ Q → met node x) :
    Visited met source n a Q (leads rel edges) target (visitEdges rel target node a edges) := by
  induction edges generalizing a Q with
  | nil =>
    refine ⟨fun some => absurd (by simp [leads, upTo]) some, fun _ mem => (by cases mem), ?_⟩
    intro _ _
    exact ⟨a, rfl, rfl, by simpa [leads, firsts] using holds⟩
  | cons edge edges ih =>
    rw [visitEdges]
    by_cases matching : passes rel edge
    · have lead : leads rel (edge :: edges) = edge.toId :: leads rel edges := by
        rw [leads, List.filter_cons_of_pos matching, List.map_cons, leads]
      rw [lead] at meets ⊢
      have later : ∀ x ∈ leads rel edges, x ∉ Q → met node x := fun x mem =>
        meets x (List.mem_cons_of_mem _ mem)
      by_cases inside : 0 ≤ edge.toId ∧ edge.toId < n
      · by_cases old : edge.toId ∈ Q
        · have other : edge.toId ≠ target := fun same => unfound (same ▸ old)
          obtain ⟨leaves, finds, queues⟩ := ih holds known unfound later
          rw [visitEdge_old holds matching old, Outcome.returned_bind]
          refine ⟨?_, ?_, ?_⟩
          · intro some
            exact leaves fun all => some (forall_upTo_cons.mpr ⟨inside, fun _ => all⟩)
          · intro all mem
            exact finds ((forall_upTo_cons.mp all).2 other)
              ((List.mem_cons.mp mem).resolve_left (Ne.symm other))
          · intro all missing
            rw [firsts, if_pos old]
            exact queues ((forall_upTo_cons.mp all).2 other)
              fun mem => missing (List.mem_cons_of_mem _ mem)
        · obtain ⟨finds, queues⟩ := visitEdge_new target holds matching known
            inside.1 inside.2 old (meets _ List.mem_cons_self old)
          by_cases same : edge.toId = target
          · obtain ⟨a', visited, traced⟩ := finds same
            rw [visited, Outcome.returned_bind]
            refine ⟨?_, fun _ _ => ⟨a', rfl, traced⟩, ?_⟩
            · intro some
              have all : ∀ x ∈ upTo target (edge.toId :: leads rel edges), 0 ≤ x ∧ x < (n : Int) :=
                forall_upTo_cons.mpr ⟨inside, fun other => absurd same other⟩
              exact absurd all some
            · intro _ missing
              exact absurd (same ▸ List.mem_cons_self) missing
          · obtain ⟨a', visited, head, holds'⟩ := queues same
            have unfound' : target ∉ Q ++ [edge.toId] := by
              rw [List.mem_append, List.mem_singleton, not_or]
              exact ⟨unfound, Ne.symm same⟩
            obtain ⟨leaves, finds, queues⟩ := ih holds' (List.mem_append_left _ known) unfound'
              fun x mem new => later x mem fun old => new (List.mem_append_left _ old)
            rw [visited, Outcome.returned_bind]
            refine ⟨?_, ?_, ?_⟩
            · intro some
              exact leaves fun all => some (forall_upTo_cons.mpr ⟨inside, fun _ => all⟩)
            · intro all mem
              exact finds ((forall_upTo_cons.mp all).2 same)
                ((List.mem_cons.mp mem).resolve_left (Ne.symm same))
            · intro all missing
              obtain ⟨a'', ran, head', holds''⟩ := queues ((forall_upTo_cons.mp all).2 same)
                fun mem => missing (List.mem_cons_of_mem _ mem)
              refine ⟨a'', ran, head'.trans head, ?_⟩
              rw [firsts, if_neg old]
              rw [List.append_assoc] at holds''
              exact holds''
      · have outside : ¬ ∀ x ∈ upTo target (edge.toId :: leads rel edges),
            0 ≤ x ∧ x < (n : Int) := fun all => inside (forall_upTo_cons.mp all).1
        refine ⟨fun _ => ⟨⟨edge.toId⟩, ?_⟩, fun all => absurd all outside,
          fun all => absurd all outside⟩
        rw [visitEdge_outside holds matching inside, Outcome.threw_bind]
    · have lead : leads rel (edge :: edges) = leads rel edges := by
        rw [leads, List.filter_cons_of_neg matching, leads]
      rw [lead] at meets ⊢
      rw [visitEdge_filtered matching, Outcome.returned_bind]
      exact ih holds known unfound meets

/-! ### The walk back -/

/-- The walk back stays in the arrays, and it ends. -/
theorem walkBack_spec (chained : Chained met source a Q) (inside : ∀ x ∈ Q, 0 ≤ x) {j : Nat} {x : Int}
    (here : Q[j]? = some x) (fuel : Nat) :
    (∀ i, walkBack a fuel x ≠ Outcome.threw i) ∧
      (j + 2 ≤ fuel → ∃ path, walkBack a fuel x = Outcome.returned path ∧
        Back met source x path.nodes) := by
  induction fuel generalizing j x with
  | zero => exact ⟨fun _ => Outcome.stuck_ne_threw, fun few => absurd few (by omega)⟩
  | succ fuel ih =>
    have positive := inside x (List.mem_of_getElem? here)
    rw [walkBack, if_neg (by omega)]
    rcases chained j x here with ⟨rfl, root⟩ | ⟨i, y, via, earlier, there, first, parent, viaRel⟩
    · rw [aget_eq root, Outcome.returned_bind]
      cases fuel with
      | zero => exact ⟨fun _ => Outcome.stuck_ne_threw, fun few => absurd few (by omega)⟩
      | succ fuel => exact ⟨fun _ => Outcome.returned_ne_threw, fun _ => ⟨⟨[x], []⟩, rfl, .source⟩⟩
    · have positive' := inside y (List.mem_of_getElem? there)
      obtain ⟨safe, returns⟩ := ih there
      rw [aget_eq parent, Outcome.returned_bind, Outcome.ofOption, Outcome.returned_bind,
        if_neg (by omega), aget_eq viaRel, Outcome.returned_bind, Outcome.ofOption,
        Outcome.returned_bind, Outcome.pure_eq, Outcome.returned_bind]
      constructor
      · intro k thrown
        rcases Outcome.bind_eq_threw.mp thrown with rest | ⟨path, -, last⟩
        · exact safe k rest
        · cases last
      · intro enough
        obtain ⟨path, rest, back⟩ := returns (by omega)
        exact ⟨_, Outcome.bind_eq_returned.mpr ⟨path, rest, rfl⟩, .step first back⟩

/-! ### The main loop -/

theorem Holds.advance (holds : Holds met source n a Q) (head : Int) :
    Holds met source n { a with head := head } Q :=
  ⟨holds.lengths, holds.inside, holds.distinct, holds.visited, holds.queued, holds.tail,
    holds.chained⟩

/-- The loop ends with an empty queue. -/
theorem search_end (holds : Holds met source n a E) (head : a.head = E.length) (fuel : Nat) :
    search g rel target (fuel + 1) a = Outcome.returned ⟨[], []⟩ := by
  rw [search, if_neg (by rw [head, holds.tail]; omega)]
  rfl

/-- What one iteration does with the edges of the next node. -/
theorem search_next {v : Int} (next : vget a.queue a.head = some (some v)) (more : a.head < a.tail)
    (fuel : Nat) : search g rel target (fuel + 1) a =
      (do
        let (a, found) ← visitEdges rel target v { a with head := a.head + 1 } (g.neighbors v)
        if found then do
          let path ← walkBack a fuel target
          pure ⟨path.nodes.reverse, path.rels.reverse⟩
        else search g rel target fuel a) := by
  rw [search, if_pos more, aget_eq next, Outcome.returned_bind, Outcome.ofOption,
    Outcome.returned_bind]

theorem search_step {v : Int} (holds : Holds met source n a (E ++ v :: P)) (head : a.head = E.length)
    (fuel : Nat) : search g rel target (fuel + 1) a =
      (do
        let (a, found) ← visitEdges rel target v { a with head := a.head + 1 } (g.neighbors v)
        if found then do
          let path ← walkBack a fuel target
          pure ⟨path.nodes.reverse, path.rels.reverse⟩
        else search g rel target fuel a) := by
  have next : vget a.queue a.head = some (some v) := by
    rw [head]
    apply holds.queued
    rw [List.getElem?_append_right (le_refl _), Nat.sub_self]
    rfl
  have more : a.head < a.tail := by
    rw [head, holds.tail, List.length_append, List.length_cons]
    omega
  exact search_next next more fuel

/-- What the search meets stays in the arrays. -/
def Inside (g : DynamicGraph W) (rel : Bytes) (source target : Int) (n : Nat) : Prop :=
  ∀ E v P, Search (successors g rel) source target E (v :: P) →
    ∀ x ∈ upTo target (successors g rel v), 0 ≤ x ∧ x < (n : Int)

/-- The arrays hold what the search for the target has found. -/
abbrev Follows (g : DynamicGraph W) (rel : Bytes) (source target : Int) (n : Nat) (a : BfsArrays)
    (Q : List Int) : Prop :=
  Holds (Discovers (successors g rel) source target) source n a Q

/-- Where all of it does, the loop leaves no array, and it ends. -/
theorem search_inside (inside : Inside g rel source target n) (differ : source ≠ target)
    (searched : Search (successors g rel) source target E P) (holds : Follows g rel source target n a (E ++ P))
    (head : a.head = E.length) (fuel : Nat) :
    (∀ i, search g rel target fuel a ≠ Outcome.threw i) ∧
      (2 * n + 2 ≤ fuel + E.length → ∃ path, search g rel target fuel a = Outcome.returned path ∧
        Finds (successors g rel) source target path.nodes) := by
  have few := length_le_of_nodup holds.distinct holds.inside
  rw [List.length_append] at few
  induction fuel generalizing a E P with
  | zero => exact ⟨fun _ => Outcome.stuck_ne_threw, fun many => absurd many (by omega)⟩
  | succ fuel ih =>
    cases P with
    | nil =>
      rw [List.append_nil] at holds
      rw [search_end holds head]
      exact ⟨fun _ => Outcome.returned_ne_threw, fun _ => ⟨_, rfl, .nothing searched⟩⟩
    | cons v P =>
      have known : v ∈ E ++ v :: P := by simp
      obtain ⟨-, finds, queues⟩ := visitEdges_spec rel (g.neighbors v)
        (holds.advance (a.head + 1)) known (searched.missing differ)
        fun x next new => ⟨E, P, searched, next, new⟩
      have all := inside E v P searched
      rw [search_step holds head]
      by_cases found : target ∈ successors g rel v
      · obtain ⟨a', visited, Q, short, positive, chained⟩ := finds all found
        have here : (Q ++ [target])[Q.length]? = some target := List.getElem?_concat_length
        obtain ⟨safe, returns⟩ := walkBack_spec chained positive here fuel
        rw [visited, Outcome.returned_bind]
        constructor
        · intro i thrown
          rcases Outcome.bind_eq_threw.mp thrown with walk | ⟨path, -, last⟩
          · exact safe i walk
          · cases last
        · intro enough
          rw [List.length_cons] at few
          obtain ⟨path, walk, back⟩ := returns (by omega)
          exact ⟨_, Outcome.bind_eq_returned.mpr ⟨path, walk, rfl⟩, .path searched found back⟩
      · obtain ⟨a', visited, head', holds'⟩ := queues all found
        have next := searched.step found
        have assoc : E ++ v :: P ++ firsts (E ++ v :: P) (successors g rel v) =
            (E ++ [v]) ++ (P ++ firsts (E ++ v :: P) (successors g rel v)) := by simp
        rw [show leads rel (g.neighbors v) = successors g rel v from rfl, assoc] at holds'
        have bound := length_le_of_nodup holds'.distinct holds'.inside
        rw [List.length_append] at bound
        obtain ⟨safe, returns⟩ := ih next holds' (by
          rw [head', List.length_append, List.length_singleton]
          push_cast
          rw [← head]) bound
        rw [visited, Outcome.returned_bind]
        refine ⟨safe, ?_⟩
        intro enough
        exact returns (by rw [List.length_append, List.length_singleton]; omega)

/-- As long as the loop leaves no array it follows the search. -/
theorem search_reach {N : Nat} (safe : ∀ fuel, N ≤ fuel → ∀ i, search g rel target fuel a ≠ Outcome.threw i)
    (differ : source ≠ target) (holds : Follows g rel source target n a [source]) (head : a.head = 0)
    (searched : Search (successors g rel) source target E P) :
    ∃ a', Follows g rel source target n a' (E ++ P) ∧ a'.head = E.length ∧
      ∀ fuel, search g rel target (E.length + fuel) a = search g rel target fuel a' := by
  induction searched with
  | start => exact ⟨a, holds, head, fun fuel => by rw [List.length_nil, Nat.zero_add]⟩
  | @step E P v searched missing ih =>
    obtain ⟨a', holds', head', run⟩ := ih
    obtain ⟨leaves, -, queues⟩ := visitEdges_spec rel (g.neighbors v)
      (holds'.advance (a'.head + 1)) (show v ∈ E ++ v :: P by simp) (searched.missing differ)
      fun x next new => ⟨E, P, searched, next, new⟩
    by_cases inside : ∀ x ∈ upTo target (leads rel (g.neighbors v)), 0 ≤ x ∧ x < (n : Int)
    · obtain ⟨a'', visited, head'', holds''⟩ := queues inside missing
      have assoc : E ++ v :: P ++ firsts (E ++ v :: P) (successors g rel v) =
          (E ++ [v]) ++ (P ++ firsts (E ++ v :: P) (successors g rel v)) := by simp
      rw [show leads rel (g.neighbors v) = successors g rel v from rfl, assoc] at holds''
      refine ⟨a'', holds'', ?_, ?_⟩
      · rw [head'', List.length_append, List.length_singleton]
        push_cast
        rw [← head']
      · intro fuel
        rw [List.length_append, List.length_singleton, Nat.add_assoc, Nat.add_comm 1, run,
          search_step holds' head', visited, Outcome.returned_bind]
        rfl
    · obtain ⟨i, thrown⟩ := leaves inside
      apply absurd _ (safe (E.length + (N + 1)) (by omega) i)
      rw [run, search_step holds' head', thrown, Outcome.threw_bind]

/-- What the search meets stays in the arrays if the loop does with enough iterations. -/
theorem inside_of_safe {N : Nat} (safe : ∀ fuel, N ≤ fuel → ∀ i, search g rel target fuel a ≠ Outcome.threw i)
    (differ : source ≠ target) (holds : Follows g rel source target n a [source]) (head : a.head = 0) :
    Inside g rel source target n := by
  intro E v P searched
  by_contra some
  obtain ⟨a', holds', head', run⟩ := search_reach safe differ holds head searched
  obtain ⟨leaves, -, -⟩ := visitEdges_spec rel (g.neighbors v)
    (holds'.advance (a'.head + 1)) (show v ∈ E ++ v :: P by simp) (searched.missing differ)
    fun x next new => ⟨E, P, searched, next, new⟩
  obtain ⟨i, thrown⟩ := leaves some
  apply absurd _ (safe (E.length + (N + 1)) (by omega) i)
  rw [run, search_step holds' head', thrown, Outcome.threw_bind]

/-! ### The call -/

/-- Each of the four arrays found room for `n` elements. -/
structure Allocated (a : BfsArrays) (n : Int) : Prop where
  parent : a.parent.length = n
  viaRel : a.viaRel.length = n
  visited : a.visited.length = n
  queue : a.queue.length = n

/-- Nothing is in the queue, and nothing is marked. -/
structure Fresh (a : BfsArrays) : Prop where
  head : a.head = 0
  tail : a.tail = 0
  unvisited : ∀ b ∈ a.visited, b = false

theorem fresh_alloc (arena : Arena) (n : Int) : Fresh (alloc arena n).2 := by
  refine ⟨rfl, rfl, ?_⟩
  intro b mem
  simp only [alloc, Arena.allocArray] at mem
  split at mem
  · exact (List.mem_replicate.mp mem).2
  · cases mem

theorem fresh_onHeap (n : Int) : Fresh (onHeap n) :=
  ⟨rfl, rfl, fun _ mem => (List.mem_replicate.mp mem).2⟩

theorem allocated_onHeap (n : Nat) : (onHeap n).Allocated n := by
  constructor <;> simp [onHeap]

/-- What becomes of the arrays when the source enters the queue, which no names are needed for. -/
theorem start_eq_returned : a.start source = Outcome.returned a' ↔
    ∃ queue visited parent, vset a.queue a.tail (some source) = some queue ∧
      vset a.visited source true = some visited ∧
      vset a.parent source (some (-1)) = some parent ∧
      { a with queue := queue, tail := a.tail + 1, visited := visited, parent := parent } = a' := by
  simp only [start, enqueue, Outcome.bind_eq_returned, aset_eq_returned, Outcome.pure_eq,
    Outcome.returned_inj]
  constructor
  · rintro ⟨_, ⟨queue, stored, rfl⟩, visited, stored', parent, stored'', rfl⟩
    exact ⟨queue, visited, parent, stored, stored', stored'', rfl⟩
  · rintro ⟨queue, visited, parent, stored, stored', stored'', rfl⟩
    exact ⟨_, ⟨queue, stored, rfl⟩, visited, stored', parent, stored'', rfl⟩

/-- The source enters the queue if it is an index. -/
theorem start_inside (met : Int → Int → Prop) (fresh : Fresh a) (room : a.Allocated n)
    (low : 0 ≤ source) (high : source < n) : ∃ a', a.start source = Outcome.returned a' ∧
      a'.head = 0 ∧ Holds met source n a' [source] := by
  obtain ⟨head, tail, unvisited⟩ := fresh
  obtain ⟨length₁, length₂, length₃, length₄⟩ := room
  obtain ⟨queue, stored₄⟩ := vset_isSome (v := a.queue) (i := a.tail) (by omega) (by omega)
    (some source)
  obtain ⟨visited, stored₃⟩ := vset_isSome (v := a.visited) low (by omega) true
  obtain ⟨parent, stored₁⟩ := vset_isSome (v := a.parent) low (by omega) (some (-1))
  refine ⟨{ a with queue := queue, tail := a.tail + 1, visited := visited, parent := parent },
    start_eq_returned.mpr ⟨queue, visited, parent, stored₄, stored₃, stored₁, rfl⟩, head, ?_⟩
  · refine ⟨⟨?_, ?_, ?_, ?_⟩, ?_, List.nodup_singleton _, ?_, ?_, ?_, ?_⟩
    · exact (length_vset stored₁).trans (by omega)
    · exact Int.ofNat_inj.mp length₂
    · exact (length_vset stored₃).trans (by omega)
    · exact (length_vset stored₄).trans (by omega)
    · intro x mem
      rw [List.mem_singleton.mp mem]
      exact ⟨low, high⟩
    · intro i low' high'
      rw [vget_vset stored₃]
      by_cases here : i = source
      · simp [here]
      · obtain ⟨b, read⟩ := Option.isSome_iff_exists.mp
          (vget_isSome.mpr ⟨low', show i < a.visited.length by omega⟩)
        have blank := unvisited b (List.mem_of_getElem? (vget_eq_some.mp read).2)
        simp [here, read, blank]
    · intro j x here
      rw [List.getElem?_singleton] at here
      split at here
      · rename_i first
        cases here
        rw [vget_vset stored₄, tail, first]
        rfl
      · cases here
    · rw [tail]
      rfl
    · intro j x here
      have same := List.mem_singleton.mp (List.mem_of_getElem? here)
      rw [vget_vset stored₁, same, if_pos rfl]
      exact Or.inl ⟨rfl, rfl⟩

/-- A source outside the arrays. -/
theorem start_outside (fresh : Fresh a) (room : a.Allocated n)
    (outside : ¬ (0 ≤ source ∧ source < n)) : ∃ i, a.start source = Outcome.threw i := by
  obtain ⟨head, tail, -⟩ := fresh
  obtain ⟨length₁, length₂, length₃, length₄⟩ := room
  by_cases first : 0 < n
  · obtain ⟨queue, stored₄⟩ := vset_isSome (v := a.queue) (i := a.tail) (by omega) (by omega)
      (some source)
    refine ⟨⟨source⟩, ?_⟩
    simp only [start, enqueue, aset_eq stored₄, Outcome.returned_bind, Outcome.pure_eq]
    rw [aset_outside (by omega), Outcome.threw_bind]
  · refine ⟨⟨a.tail⟩, ?_⟩
    simp only [start, enqueue]
    rw [aset_outside (by omega), Outcome.threw_bind, Outcome.threw_bind]

end FastGraph.BfsArrays

namespace FastGraph
open BreadthFirst BfsArrays

section
variable {W : Type}

/-- `id` is an index of the arrays of `bfs_path`. -/
def Indexed (g : DynamicGraph W) (id : Int) : Prop := 0 ≤ id ∧ id ≤ g.maxNodeId

/-- The ids that `bfs_path` meets are indices: the source, and where the walks along edges of
the relation end, by length and then in the order of the edge lists, up to the target. -/
def PathIndexed (g : DynamicGraph W) (source target : Int) (rel : Bytes) : Prop :=
  source = target ∨ Indexed g source ∧
    ∀ k, ∀ id ∈ upTo target (ends (successors g rel) source k), Indexed g id

/-- Where its arrays found room, `bfs_path` uses no index outside them exactly if the ids it
meets are indices. -/
theorem bfsPath_inside_iff (g : DynamicGraph W) (source target : Int) (rel : Bytes)
    {arena : Arena} {n : Nat} (size : intAdd g.maxNodeId 1 = some (n : Int))
    (room : (BfsArrays.alloc arena n).2.Allocated n) :
    (∀ fuel i, bfsPath fuel g source target rel arena ≠ Outcome.threw i) ↔
      PathIndexed g source target rel := by
  by_cases same : source = target
  · refine iff_of_true ?_ (Or.inl same)
    intro fuel i
    rw [bfsPath, if_pos same]
    exact Outcome.returned_ne_threw
  · have largest : ∀ id, Indexed g id ↔ 0 ≤ id ∧ id < (n : Int) := by
      intro id
      have := (intAdd_eq_some.mp size).1
      rw [Indexed]
      omega
    have unfolded : ∀ fuel, bfsPath fuel g source target rel arena = (do
        let a ← (BfsArrays.alloc arena n).2.start source
        let path ← a.search g rel target fuel
        pure ((BfsArrays.alloc arena n).1, path)) := by
      intro fuel
      rw [bfsPath, if_neg same, size]
      rfl
    simp only [PathIndexed, same, false_or, largest, unfolded]
    by_cases inside : 0 ≤ source ∧ source < n
    · obtain ⟨a, started, head, holds⟩ :=
        start_inside (Discovers (successors g rel) source target) (fresh_alloc arena n) room
          inside.1 inside.2
      rw [started]
      simp only [Outcome.returned_bind]
      have met := met_iff (successors g rel) source target
        fun x => 0 ≤ x ∧ x < (n : Int)
      constructor
      · intro safe
        refine ⟨inside, met.mp (inside_of_safe (N := 0) ?_ same holds head)⟩
        intro fuel _ i thrown
        exact safe fuel i (Outcome.bind_eq_threw.mpr (Or.inl thrown))
      · rintro ⟨-, listed⟩ fuel i thrown
        rcases Outcome.bind_eq_threw.mp thrown with searching | ⟨path, -, last⟩
        · exact (search_inside (met.mpr listed) same .start holds head fuel).1 i searching
        · exact Outcome.returned_ne_threw last
    · obtain ⟨i, started⟩ := start_outside (fresh_alloc arena n) room inside
      rw [started]
      refine iff_of_false ?_ fun both => inside both.1
      intro safe
      exact safe 0 i rfl

end

/-- Two nodes and an edge between them. -/
def oneHop : GraphEngine Int Int :=
  ((GraphEngine.empty.addNode 1 (str "a") []).addNode 2 (str "b") []).addEdge 1 2 (str "r") 1

theorem bfsPath_inside_iff_oneHop :
    (BfsArrays.alloc oneHop.resetQueryArena.queryArena 3).2.Allocated 3 ∧
      ((∀ fuel i, bfsPath fuel oneHop.graph 1 2 (str "r") oneHop.resetQueryArena.queryArena ≠
        Outcome.threw i) ↔ PathIndexed oneHop.graph 1 2 (str "r")) := by
  have room : (BfsArrays.alloc oneHop.resetQueryArena.queryArena 3).2.Allocated 3 :=
    ⟨by decide, by decide, by decide, by decide⟩
  exact ⟨room, bfsPath_inside_iff (n := 3) oneHop.graph 1 2 (str "r") (by decide) room⟩

/-- A negative source: the arrays of a graph with the node 1 have the indices 0 and 1. -/
theorem bfsPath_negativeSource :
    (GraphEngine.empty.addNode 1 (str "a") [] : GraphEngine Int Int).Reachable ∧
    (BfsArrays.alloc (GraphEngine.empty : GraphEngine Int Int).queryArena 2).2.Allocated 2 ∧
    bfsPath 1 (GraphEngine.empty.addNode 1 (str "a") [] : GraphEngine Int Int).graph (-5) 1 []
      (GraphEngine.empty : GraphEngine Int Int).queryArena = Outcome.threw ⟨-5⟩ := by
  refine ⟨.step (.addNode 1 (str "a") []) .empty rfl, ⟨?_, ?_, ?_, ?_⟩, ?_⟩
  · decide
  · decide
  · decide
  · decide
  · rfl

end FastGraph
