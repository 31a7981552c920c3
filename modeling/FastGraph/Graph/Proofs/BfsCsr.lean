import FastGraph.Graph.Proofs.Bfs
import FastGraph.Graph.Proofs.Copies

/-!
# The two breadth-first searches

`bfs_path` and `bfs_path_csr` are written independently, over the lists of edges and over the
ranges of the compacted graph. Both run the search of `Misc.BreadthFirst`, so they find the
same path wherever both return.
-/

namespace FastGraph.CsrBfs
open BreadthFirst BfsArrays CSRGraph

variable {W : Type} {g : DynamicGraph W} {c : CSRGraph W} {v v' : Vectors} {Q E P : List Int}
  {source target : Int} {met : Int → Int → Prop}

/-- The elements of `Q` lead back to the source, each to an earlier one that has met it. -/
def Chained (met : Int → Int → Prop) (c : CSRGraph W) (source : Int) (v : Vectors)
    (Q : List Int) : Prop :=
  ∀ (j : Nat) x, Q[j]? = some x → x = source ∧ vget v.parent (c.toIdx x) = some (-1) ∨
    ∃ (i : Nat) (y : Int), i < j ∧ Q[i]? = some y ∧ met y x ∧
      vget v.parent (c.toIdx x) = some (c.toIdx y)

/-- The vectors hold, under the numbers of the nodes, what a search has found that has put `Q`
into the queue. -/
structure Holds (met : Int → Int → Prop) (c : CSRGraph W) (g : DynamicGraph W) (source : Int)
    (v : Vectors) (Q : List Int) : Prop where
  lengths : v.parent.length = c.nodeCount ∧ v.visited.length = c.nodeCount ∧
    v.queue.length = c.nodeCount
  nodes : ∀ x ∈ Q, g.hasNode x
  distinct : Q.Nodup
  visited : ∀ x, g.hasNode x → vget v.visited (c.toIdx x) = some (decide (x ∈ Q))
  queued : ∀ (j : Nat) x, Q[j]? = some x → vget v.queue j = some (c.toIdx x)
  tail : v.tail = Q.length
  chained : Chained met c source v Q

/-- The target was found, and a chain of nodes leads back from it. -/
def Traced (met : Int → Int → Prop) (c : CSRGraph W) (g : DynamicGraph W) (source : Int)
    (v : Vectors) (target : Int) : Prop :=
  ∃ Q : List Int, Q.length < c.nodeCount ∧ (∀ x ∈ Q ++ [target], g.hasNode x) ∧
    Chained met c source v (Q ++ [target])

/-- There are no more nodes in the queue than there are numbers. -/
theorem length_le_nodeCount (copies : Copies c g) (distinct : Q.Nodup)
    (nodes : ∀ x ∈ Q, g.hasNode x) : Q.length ≤ c.nodeCount.toNat := by
  have numbers : (Q.map c.toIdx).Nodup := by
    apply List.Nodup.map_on _ distinct
    intro x mem y mem' same
    exact (copies.toIdx_inj (nodes x mem) (nodes y mem')).mp same
  rw [← List.length_map c.toIdx]
  apply length_le_of_nodup numbers
  intro i mem
  obtain ⟨x, inside, rfl⟩ := List.mem_map.mp mem
  exact copies.number x (nodes x inside)

/-- Marking one more node keeps the chains of the others. -/
theorem Chained.mark (chained : Chained met c source v Q) (copies : Copies c g)
    (nodes : ∀ y ∈ Q, g.hasNode y) {x node : Int} {parent : List Int} (isNode : g.hasNode x)
    (new : x ∉ Q) (known : node ∈ Q) (first : met node x)
    (stored : vset v.parent (c.toIdx x) (c.toIdx node) = some parent)
    (parents : v'.parent = parent) : Chained met c source v' (Q ++ [x]) := by
  intro j y here
  rw [parents, vget_vset stored]
  rcases getElem?_concat_cases here with ⟨before, old⟩ | ⟨rfl, rfl⟩
  · have mem := List.mem_of_getElem? old
    have other : c.toIdx y ≠ c.toIdx x := by
      intro same
      rw [copies.toIdx_inj (nodes y mem) isNode] at same
      exact new (same ▸ mem)
    rw [if_neg other]
    rcases chained j y old with root | ⟨i, z, earlier, there, first', parent'⟩
    · exact Or.inl root
    · refine Or.inr ⟨i, z, earlier, ?_, first', parent'⟩
      rw [List.getElem?_append_left (by omega)]
      exact there
  · obtain ⟨i, inside, at_⟩ := List.mem_iff_getElem.mp known
    rw [if_pos rfl]
    refine Or.inr ⟨i, node, inside, ?_, first, rfl⟩
    rw [List.getElem?_append_left inside, List.getElem?_eq_getElem inside, at_]

/-- A slot whose edge leads to a node that was found before. -/
theorem visitSlot_old (holds : Holds met c g source v Q) {dst node k : Int} {edge : Edge W}
    (slot : HasEdge c k edge) (old : edge.toId ∈ Q) :
    visitSlot c dst node v k = some (v, false) := by
  have read := holds.visited _ (holds.nodes _ old)
  rw [decide_eq_true old] at read
  simp [visitSlot, slot.target, read]

/-- A slot whose edge leads to a node that was not found before. -/
theorem visitSlot_new (copies : Copies c g) (holds : Holds met c g source v Q) {node k : Int}
    {edge : Edge W} (isTarget : g.hasNode target) (slot : HasEdge c k edge) (known : node ∈ Q)
    (isNode : g.hasNode edge.toId) (new : edge.toId ∉ Q) (first : met node edge.toId) :
    (edge.toId = target →
      ∃ v', visitSlot c (c.toIdx target) (c.toIdx node) v k = some (v', true) ∧
        Traced met c g source v' target) ∧
    (edge.toId ≠ target →
      ∃ v', visitSlot c (c.toIdx target) (c.toIdx node) v k = some (v', false) ∧
        v'.head = v.head ∧ Holds met c g source v' (Q ++ [edge.toId])) := by
  obtain ⟨length₁, length₂, length₃⟩ := holds.lengths
  obtain ⟨low, high⟩ := copies.number _ isNode
  have nodes : ∀ x ∈ Q ++ [edge.toId], g.hasNode x := by
    intro x mem
    rcases List.mem_append.mp mem with old | last
    · exact holds.nodes x old
    · rw [List.mem_singleton.mp last]
      exact isNode
  have distinct : (Q ++ [edge.toId]).Nodup := by
    rw [← List.concat_eq_append]
    exact holds.distinct.concat new
  have room := length_le_nodeCount copies distinct nodes
  rw [List.length_append, List.length_singleton] at room
  have read := holds.visited _ isNode
  rw [decide_eq_false new] at read
  obtain ⟨visited, stored₂⟩ := vset_isSome (v := v.visited) low (by omega) true
  obtain ⟨parent, stored₁⟩ := vset_isSome (v := v.parent) low (by omega) (c.toIdx node)
  obtain ⟨queue, stored₃⟩ := vset_isSome (v := v.queue) (i := v.tail) (by rw [holds.tail]; omega)
    (by rw [holds.tail]; omega) (c.toIdx edge.toId)
  have same : c.toIdx edge.toId = c.toIdx target ↔ edge.toId = target :=
    copies.toIdx_inj isNode isTarget
  have unfolded : visitSlot c (c.toIdx target) (c.toIdx node) v k =
      if edge.toId = target then some ({ v with visited := visited, parent := parent }, true)
      else some ({ v with
        visited := visited
        parent := parent
        queue := queue
        tail := v.tail + 1 }, false) := by
    rw [visitSlot, slot.target, Option.bind_eq_bind, Option.bind_some, read]
    simp only [Option.bind_eq_bind, Option.bind_some, Bool.false_eq_true, if_false, stored₁,
      stored₂, same, enqueue, stored₃]
  constructor
  · intro found
    rw [if_pos found] at unfolded
    refine ⟨_, unfolded, Q, by omega, ?_, ?_⟩
    · rw [← found]
      exact nodes
    · rw [← found]
      exact holds.chained.mark copies holds.nodes isNode new known first stored₁ rfl
  · intro other
    rw [if_neg other] at unfolded
    refine ⟨_, unfolded, rfl, ⟨?_, ?_, ?_⟩, nodes, distinct, ?_, ?_, ?_,
      holds.chained.mark copies holds.nodes isNode new known first stored₁ rfl⟩
    · rw [← length₁, length_vset stored₁]
    · rw [← length₂, length_vset stored₂]
    · rw [← length₃, length_vset stored₃]
    · intro x isNode'
      rw [vget_vset stored₂]
      by_cases here : x = edge.toId
      · simp [here]
      · rw [if_neg (mt (copies.toIdx_inj isNode' isNode).mp here), holds.visited x isNode']
        simp [here]
    · rw [holds.tail] at stored₃
      exact vget_of_concat holds.queued stored₃
    · rw [List.length_append, List.length_singleton]
      push_cast
      rw [holds.tail]

/-- The loop over a range finds the target, or it queues what is new. -/
theorem visitSlots_spec (copies : Copies c g) (isTarget : g.hasNode target) {node : Int}
    {ks : List Int} {edges : List (Edge W)} (slots : List.Forall₂ (HasEdge c) ks edges)
    (inner : ∀ edge ∈ edges, g.hasNode edge.toId) (holds : Holds met c g source v Q)
    (known : node ∈ Q) (unfound : target ∉ Q)
    (meets : ∀ x ∈ edges.map Edge.toId, x ∉ Q → met node x) :
    (target ∈ edges.map Edge.toId →
      ∃ v', visitSlots c (c.toIdx target) (c.toIdx node) v ks = some (v', true) ∧
        Traced met c g source v' target) ∧
    (target ∉ edges.map Edge.toId →
      ∃ v', visitSlots c (c.toIdx target) (c.toIdx node) v ks = some (v', false) ∧
        v'.head = v.head ∧ Holds met c g source v' (Q ++ firsts Q (edges.map Edge.toId))) := by
  induction slots generalizing v Q with
  | nil =>
    refine ⟨fun mem => (by cases mem), fun _ => ⟨v, rfl, rfl, ?_⟩⟩
    simpa [firsts] using holds
  | @cons k edge ks edges slot slots ih =>
    have isNode := inner edge List.mem_cons_self
    have inner' := fun edge' (mem : edge' ∈ edges) => inner edge' (List.mem_cons_of_mem _ mem)
    rw [List.map_cons] at meets ⊢
    have later : ∀ x ∈ edges.map Edge.toId, x ∉ Q → met node x :=
      fun x mem => meets x (List.mem_cons_of_mem _ mem)
    rw [visitSlots]
    by_cases old : edge.toId ∈ Q
    · have other : target ≠ edge.toId := fun same => unfound (same ▸ old)
      obtain ⟨finds, queues⟩ := ih inner' holds known unfound later
      rw [visitSlot_old holds slot old, firsts, if_pos old]
      constructor
      · intro mem
        exact finds ((List.mem_cons.mp mem).resolve_left other)
      · intro missing
        exact queues fun mem => missing (List.mem_cons_of_mem _ mem)
    · obtain ⟨finds, queues⟩ := visitSlot_new copies holds isTarget slot known isNode old
        (meets _ List.mem_cons_self old)
      rw [firsts, if_neg old]
      by_cases same : edge.toId = target
      · obtain ⟨v', visited, traced⟩ := finds same
        rw [visited]
        refine ⟨fun _ => ⟨v', rfl, traced⟩, ?_⟩
        intro missing
        exact absurd (same ▸ List.mem_cons_self) missing
      · obtain ⟨v', visited, head, holds'⟩ := queues same
        have unfound' : target ∉ Q ++ [edge.toId] := by
          rw [List.mem_append, List.mem_singleton, not_or]
          exact ⟨unfound, Ne.symm same⟩
        obtain ⟨finds, queues⟩ := ih inner' holds' (List.mem_append_left _ known) unfound'
          fun x mem new => later x mem fun old => new (List.mem_append_left _ old)
        rw [visited]
        constructor
        · intro mem
          exact finds ((List.mem_cons.mp mem).resolve_left (Ne.symm same))
        · intro missing
          obtain ⟨v'', ran, head', holds''⟩ := queues fun mem =>
            missing (List.mem_cons_of_mem _ mem)
          rw [List.append_assoc] at holds''
          exact ⟨v'', ran, head'.trans head, holds''⟩

/-- The walk back returns the nodes of the chain. -/
theorem walkBack_spec (copies : Copies c g) (chained : Chained met c source v Q)
    (nodes : ∀ x ∈ Q, g.hasNode x) {j : Nat} {x : Int} (here : Q[j]? = some x) {fuel : Nat}
    (enough : j + 2 ≤ fuel) :
    ∃ path, walkBack c v.parent fuel (c.toIdx x) = some path ∧ Back met source x path := by
  induction fuel generalizing j x with
  | zero => exact absurd enough (by omega)
  | succ fuel ih =>
    have node := nodes x (List.mem_of_getElem? here)
    have positive := (copies.number x node).1
    rw [walkBack, if_neg (by omega), copies.named x node]
    rcases chained j x here with ⟨rfl, root⟩ | ⟨i, y, earlier, there, first, parent⟩
    · obtain ⟨fuel, rfl⟩ := Nat.exists_eq_add_of_le' (show 1 ≤ fuel by omega)
      refine ⟨[x], ?_, .source⟩
      rw [root]
      rfl
    · obtain ⟨path, rest, back⟩ := ih there (by omega)
      refine ⟨x :: path, ?_, .step first back⟩
      rw [parent]
      simp [rest]

/-! ### The main loop -/

theorem Holds.advance (holds : Holds met c g source v Q) (head : Int) :
    Holds met c g source { v with head := head } Q :=
  ⟨holds.lengths, holds.nodes, holds.distinct, holds.visited, holds.queued, holds.tail,
    holds.chained⟩

/-- The loop runs the search to its end. -/
theorem search_spec (copies : Copies c g) (isTarget : g.hasNode target) (differ : source ≠ target)
    (searched : Search (successors g []) source target E P)
    (holds : Holds (Discovers (successors g []) source target) c g source v (E ++ P))
    (head : v.head = E.length) {fuel : Nat} (enough : 2 * c.nodeCount.toNat + 2 ≤ fuel + E.length) :
    ∃ nodes, search c (c.toIdx target) fuel v = some ⟨nodes, []⟩ ∧
      Finds (successors g []) source target nodes := by
  have few := length_le_nodeCount copies holds.distinct holds.nodes
  rw [List.length_append] at few
  induction fuel generalizing v E P with
  | zero => exact absurd enough (by omega)
  | succ fuel ih =>
    cases P with
    | nil =>
      rw [List.append_nil] at holds
      have done : ¬ v.head < v.tail := by
        rw [head, holds.tail]
        omega
      exact ⟨[], by rw [search, if_neg done], .nothing searched⟩
    | cons u P =>
      have known : u ∈ E ++ u :: P := by simp
      have node := holds.nodes u known
      obtain ⟨first, last, range, slots⟩ := copies.slots u node
      obtain ⟨finds, queues⟩ := visitSlots_spec copies isTarget slots (copies.inner u)
        (holds.advance (v.head + 1)) known (searched.missing differ)
        (fun x next new => ⟨E, P, searched, by rw [successors_nil]; exact next, new⟩)
      rw [← successors_nil] at finds queues
      have next : vget v.queue v.head = some (c.toIdx u) := by
        rw [head]
        apply holds.queued
        rw [List.getElem?_append_right (le_refl _), Nat.sub_self]
        rfl
      have more : v.head < v.tail := by
        rw [head, holds.tail, List.length_append, List.length_cons]
        omega
      rw [List.length_cons] at few
      by_cases found : target ∈ successors g [] u
      · obtain ⟨v', visited, Q, short, nodes, chained⟩ := finds found
        have here : (Q ++ [target])[Q.length]? = some target := List.getElem?_concat_length
        obtain ⟨path, walk, back⟩ := walkBack_spec copies chained nodes here
          (show Q.length + 2 ≤ fuel by omega)
        refine ⟨path.reverse, ?_, .path searched found back⟩
        rw [search, if_pos more]
        simp [next, range, visited, walk]
      · obtain ⟨v', visited, head', holds'⟩ := queues found
        have after := searched.step found
        have assoc : E ++ u :: P ++ firsts (E ++ u :: P) (successors g [] u) =
            (E ++ [u]) ++ (P ++ firsts (E ++ u :: P) (successors g [] u)) := by simp
        rw [assoc] at holds'
        have bound := length_le_nodeCount copies holds'.distinct holds'.nodes
        rw [List.length_append] at bound
        obtain ⟨path, ran, result⟩ := ih after holds' (by
          rw [head', List.length_append, List.length_singleton]
          push_cast
          rw [← head]) (by rw [List.length_append, List.length_singleton]; omega) bound
        refine ⟨path, ?_, result⟩
        rw [search, if_pos more]
        simp [next, range, visited, ran]

/-- The vectors before the loop. -/
theorem start_spec (copies : Copies c g) (met : Int → Int → Prop) (node : g.hasNode source) :
    ∃ v, start ⟨List.replicate c.nodeCount.toNat (-1), List.replicate c.nodeCount.toNat false,
        List.replicate c.nodeCount.toNat 0, 0, 0⟩ (c.toIdx source) = some v ∧
      v.head = 0 ∧ Holds met c g source v [source] := by
  obtain ⟨low, high⟩ := copies.number source node
  obtain ⟨queue, stored₁⟩ := vset_isSome (v := List.replicate c.nodeCount.toNat (0 : Int))
    (le_refl 0) (by rw [List.length_replicate]; omega) (c.toIdx source)
  obtain ⟨visited, stored₂⟩ := vset_isSome (v := List.replicate c.nodeCount.toNat false) low
    (by rw [List.length_replicate]; omega) true
  have blank : ∀ x, g.hasNode x → 0 ≤ c.toIdx x ∧ c.toIdx x < (c.nodeCount.toNat : Int) := by
    intro x node'
    have := copies.number x node'
    omega
  refine ⟨⟨List.replicate c.nodeCount.toNat (-1), visited, queue, 0, 0 + 1⟩, ?_, rfl, ?_⟩
  · simp only [start, enqueue, stored₁, stored₂, Option.bind_eq_bind, Option.bind_some]
  · refine ⟨⟨?_, ?_, ?_⟩, ?_, List.nodup_singleton _, ?_, ?_, rfl, ?_⟩
    · rw [List.length_replicate]
      omega
    · rw [length_vset stored₂, List.length_replicate]
      omega
    · rw [length_vset stored₁, List.length_replicate]
      omega
    · intro x mem
      rw [List.mem_singleton.mp mem]
      exact node
    · intro x node'
      rw [vget_vset stored₂]
      by_cases here : x = source
      · simp [here]
      · rw [if_neg (mt (copies.toIdx_inj node' node).mp here), vget_replicate,
          if_pos (blank x node')]
        simp [here]
    · intro j x here
      rw [List.getElem?_singleton] at here
      split at here
      · rename_i first
        cases here
        rw [vget_vset stored₁, first]
        rfl
      · cases here
    · intro j x here
      have same := List.mem_singleton.mp (List.mem_of_getElem? here)
      rw [vget_replicate, same, if_pos (blank source node)]
      exact Or.inl ⟨rfl, rfl⟩

/-- `bfs_path_csr` on a copy returns the path that the search finds. -/
theorem bfsPathCsr_finds (copies : Copies c g) (node : g.hasNode source)
    (isTarget : g.hasNode target) (differ : source ≠ target) : ∃ N, ∀ fuel, N ≤ fuel →
      ∃ nodes, bfsPathCsr fuel c source target = Outcome.returned ⟨nodes, []⟩ ∧
        Finds (successors g []) source target nodes := by
  obtain ⟨v, started, head, holds⟩ :=
    start_spec copies (Discovers (successors g []) source target) node
  refine ⟨2 * c.nodeCount.toNat + 2, ?_⟩
  intro fuel enough
  have many : 2 * c.nodeCount.toNat + 2 ≤ fuel + ([] : List Int).length := enough
  obtain ⟨nodes, ran, finds⟩ := search_spec copies isTarget differ .start holds head many
  have low := (copies.number source node).1
  have low' := (copies.number target isTarget).1
  have room : 0 ≤ c.nodeCount := low.trans (copies.number source node).2.le
  refine ⟨nodes, ?_, finds⟩
  simp only [bfsPathCsr]
  rw [if_neg (by omega), if_neg (mt (copies.toIdx_inj node isTarget).mp differ)]
  refine Outcome.bind_eq_returned.mpr ⟨_, vnew_eq_returned.mpr ⟨room, rfl⟩, ?_⟩
  refine Outcome.bind_eq_returned.mpr ⟨_, vnew_eq_returned.mpr ⟨room, rfl⟩, ?_⟩
  refine Outcome.bind_eq_returned.mpr ⟨_, vnew_eq_returned.mpr ⟨room, rfl⟩, ?_⟩
  rw [started]
  exact Outcome.ofOption_eq_returned.mpr ran

end FastGraph.CsrBfs

namespace FastGraph.BfsArrays
open BreadthFirst CSRGraph

variable {W : Type} {g : DynamicGraph W} {source target : Int}

/-- `bfs_path` without an arena returns the path that the search finds, if its arrays can have
an element for every id up to the largest. -/
theorem bfsPathOnHeap_finds (joined : Joined g) (nonneg : ∀ id, g.hasNode id → 0 ≤ id)
    (bounded : GraphEngine.IdsBounded g) (small : g.maxNodeId < 2 ^ 31 - 1)
    (node : g.hasNode source) (differ : source ≠ target) : ∃ N, ∀ fuel, N ≤ fuel →
      ∃ path, bfsPathOnHeap fuel g source target [] = Outcome.returned path ∧
        Finds (successors g []) source target path.nodes := by
  have indexed : ∀ id, g.hasNode id → 0 ≤ id ∧ id < g.maxNodeId + 1 := by
    intro id node'
    obtain ⟨info, stored⟩ := Option.isSome_iff_exists.mp node'
    exact ⟨nonneg id node', Int.lt_add_one_of_le (bounded id info stored)⟩
  have positive := indexed source node
  obtain ⟨n, size⟩ := Int.eq_ofNat_of_zero_le (show 0 ≤ g.maxNodeId + 1 by omega)
  have sum : intAdd g.maxNodeId 1 = some (n : Int) :=
    intAdd_eq_some.mpr ⟨size.symm, by omega, by omega⟩
  rw [size] at indexed
  obtain ⟨a, started, head, holds⟩ := start_inside (Discovers (successors g []) source target)
    (fresh_onHeap n) (allocated_onHeap n) (indexed source node).1 (indexed source node).2
  have inside : Inside g [] source target n := by
    intro E v P _ x mem
    have next := mem_of_mem_upTo mem
    rw [successors_nil] at next
    obtain ⟨edge, among, rfl⟩ := List.mem_map.mp next
    exact indexed edge.toId (joined v edge among).2
  refine ⟨2 * n + 2, ?_⟩
  intro fuel enough
  obtain ⟨path, ran, finds⟩ :=
    (search_inside inside differ .start holds head fuel).2 (by rw [List.length_nil]; omega)
  refine ⟨path, ?_, finds⟩
  rw [bfsPathOnHeap, if_neg differ, sum]
  refine Outcome.bind_eq_returned.mpr ⟨n, rfl, ?_⟩
  exact Outcome.bind_eq_returned.mpr ⟨a, started, ran⟩

end FastGraph.BfsArrays

namespace FastGraph.GraphEngine
open BreadthFirst BfsArrays CSRGraph

variable {W D : Type} [Zero W] [BEq D] [LT D] [DecidableLT D] {e : GraphEngine W D}

theorem CsrReachable.idsBounded (reached : CsrReachable e) : IdsBounded e.graph := by
  induction reached with
  | empty => exact idsBounded_empty
  | addNode _ id label props _ _ ih => exact ih.apply (.addNode id _ props)
  | addEdge _ fromId toId rel weight ih => exact ih.apply (.addEdge fromId toId rel weight)
  | removeNode _ id stepped ih =>
    rw [(removeNode_returned stepped).2.2]
    exact ih.apply (.removeNode id)
  | removeEdge _ fromId toId rel ih => exact ih.apply (.removeEdge fromId toId rel)
  | csr _ order stepped ih =>
    rcases csr_returned stepped with ⟨-, rfl, -⟩ | ⟨-, -, rfl⟩
    · exact ih
    · exact ih

/-- `csr()` and both searches return, and the searches return the same nodes. -/
def SamePath (e : GraphEngine W D) (order : IterOrder) (s t : Int) : Prop :=
  ∃ e' c nodes, e.csr order = Outcome.returned (e', c) ∧ ∃ N, ∀ fuel, N ≤ fuel →
    (∃ rels, bfsPathOnHeap fuel e.graph s t [] = Outcome.returned ⟨nodes, rels⟩) ∧
      bfsPathCsr fuel c s t = Outcome.returned ⟨nodes, []⟩

/-- The two searches agree exactly if the graph can be compacted and the number of the elements of
the arrays, one more than the largest id of a node added so far, is an `int`. -/
theorem samePath_iff (reached : CsrReachable e) (joined : Joined e.graph) (order : IterOrder)
    {s t : Int} (node : e.graph.hasNode s) (node' : e.graph.hasNode t) :
    SamePath e order s t ↔
      Compactable e.graph ∧ (s = t ∨ e.graph.maxNodeId < 2 ^ 31 - 1) := by
  constructor
  · rintro ⟨e', c, nodes, stepped, N, agree⟩
    refine ⟨(copies_of_csr reached joined stepped node).1, ?_⟩
    by_cases same : s = t
    · exact Or.inl same
    · obtain ⟨⟨rels, ran⟩, -⟩ := agree N (le_refl N)
      rw [bfsPathOnHeap, if_neg same] at ran
      obtain ⟨n, sum, -⟩ := Outcome.bind_eq_returned.mp ran
      have fits := (intAdd_eq_some.mp (Outcome.ofOption_eq_returned.mp sum)).2.2
      exact Or.inr (by omega)
  · rintro ⟨compactable, small⟩
    obtain ⟨e', c, stepped, -⟩ := reached.cached.describes compactable order
    have copies := (copies_of_csr reached joined stepped node).2
    by_cases same : s = t
    · subst same
      have low := (copies.number s node).1
      refine ⟨e', c, [s], stepped, 0, fun fuel _ => ⟨⟨[], ?_⟩, ?_⟩⟩
      · exact if_pos rfl
      · simp only [bfsPathCsr]
        rw [if_neg (by omega), if_pos trivial]
        rfl
    · obtain ⟨N, finds⟩ := CsrBfs.bfsPathCsr_finds copies node node' same
      obtain ⟨N', finds'⟩ := BfsArrays.bfsPathOnHeap_finds joined reached.cached.nonneg
        reached.idsBounded (small.resolve_left same) node same
      obtain ⟨nodes, -, found⟩ := finds N (le_refl N)
      refine ⟨e', c, nodes, stepped, max N N', ?_⟩
      intro fuel enough
      obtain ⟨nodes₁, ran₁, found₁⟩ := finds fuel (le_of_max_le_left enough)
      obtain ⟨⟨nodes₂, rels⟩, ran₂, found₂⟩ := finds' fuel (le_of_max_le_right enough)
      obtain rfl := found₁.unique found
      obtain rfl := found₂.unique found
      exact ⟨⟨rels, ran₂⟩, ran₁⟩

theorem linkedPair_reachable : CsrReachable linkedPair :=
  ((CsrReachable.empty.addNode 1 (str "a") [] (by norm_num) (by norm_num)).addNode
    5 (str "b") [] (by norm_num) (by norm_num)).addEdge 1 5 (str "r") 7

theorem samePath_iff_linkedPair : SamePath linkedPair .asListed 1 5 :=
  (samePath_iff linkedPair_reachable (by decide) .asListed (by decide)
    (by decide)).mpr ⟨by decide, Or.inr (by decide)⟩

/-- The two nodes after a node with the largest `int` was added. -/
def withLargest : GraphEngine Int Int := linkedPair.addNode (2 ^ 31 - 1) (str "c") []

/-- The two nodes after that node was removed. -/
def removedLargest : GraphEngine Int Int :=
  { withLargest with graph := withLargest.graph.removeNode (2 ^ 31 - 1) }

/-- `bfs_path` still counts the removed node, and one more than its id is no `int`;
`bfs_path_csr` finds the path. -/
theorem paths_differ : CsrReachable removedLargest ∧ Joined removedLargest.graph ∧
    removedLargest.graph.hasNode 1 ∧ removedLargest.graph.hasNode 5 ∧
    (∃ e' c N, removedLargest.csr .asListed = Outcome.returned (e', c) ∧
      ∀ fuel, N ≤ fuel → bfsPathCsr fuel c 1 5 = Outcome.returned ⟨[1, 5], []⟩) ∧
    (∀ fuel, bfsPathOnHeap fuel removedLargest.graph 1 5 [] = Outcome.stuck) ∧
    ¬ SamePath removedLargest .asListed 1 5 := by
  have reached : CsrReachable removedLargest :=
    (linkedPair_reachable.addNode (2 ^ 31 - 1) (str "c") [] (by norm_num)
      (by norm_num)).removeNode (2 ^ 31 - 1) rfl
  have joined : Joined removedLargest.graph := by decide
  have node : removedLargest.graph.hasNode 1 := by decide
  have node' : removedLargest.graph.hasNode 5 := by decide
  have edge : (5 : Int) ∈ successors removedLargest.graph [] 1 := by decide
  have found : Finds (successors removedLargest.graph []) 1 5 [1, 5] :=
    .path .start edge (.step ⟨[], [], .start, edge, by simp⟩ .source)
  obtain ⟨e', c, stepped, -⟩ := reached.cached.describes (by decide) .asListed
  obtain ⟨N, finds⟩ := CsrBfs.bfsPathCsr_finds (copies_of_csr reached joined stepped node).2 node
    node' (by norm_num)
  have path : ∀ fuel, N ≤ fuel → bfsPathCsr fuel c 1 5 = Outcome.returned ⟨[1, 5], []⟩ := by
    intro fuel enough
    obtain ⟨nodes, ran, found'⟩ := finds fuel enough
    rw [ran, found'.unique found]
  have overflow : ∀ fuel, bfsPathOnHeap fuel removedLargest.graph 1 5 [] = Outcome.stuck :=
    fun fuel => rfl
  refine ⟨reached, joined, node, node', ⟨e', c, N, stepped, path⟩, overflow, ?_⟩
  rintro ⟨_, _, _, -, N, agree⟩
  obtain ⟨⟨rels, returned⟩, -⟩ := agree N (le_refl N)
  rw [overflow] at returned
  exact Outcome.stuck_ne_returned returned

end FastGraph.GraphEngine
