import FastGraph.Graph.Proofs.BfsCsr
import FastGraph.Graph.Proofs.Dijkstra

/-!
# The two searches for a cheapest path

`dijkstra_path` skips a queued cost that is greater than the label, `dijkstra_path_csr` a node
that it has followed up before. Without negative weights both skip the same entries, and as the
numbers of the nodes are in the order of their ids both take them in one order, so that the
searches go through corresponding states and return the same path.
-/

namespace FastGraph.CsrDijkstra
open ShortestPaths Dijkstra CSRGraph

variable {W : Type} {g : DynamicGraph W} {c : CSRGraph W} {source target node : Int}

/-- An entry of one queue in the other. -/
def entry (c : CSRGraph W) (e : W × Int) : W × Int := (e.1, c.toIdx e.2)

/-- The vectors hold the labels under the numbers of the nodes, and mark the nodes that were
followed up. -/
structure Mirrors (c : CSRGraph W) (g : DynamicGraph W) (st : State Int W) (v : Vectors W)
    (seen : List Int) : Prop where
  queue : v.pq = st.queue.map (entry c)
  nodes : ∀ e ∈ st.queue, g.hasNode e.2
  dist : ∀ u, g.hasNode u → vget v.dist (c.toIdx u) = some (st.dist u)
  parent : ∀ u p, st.parent u = some p →
    g.hasNode u ∧ vget v.parent (c.toIdx u) = some (c.toIdx p)
  room : ∀ u, g.hasNode u → c.toIdx u < v.parent.length
  visited : ∀ u, g.hasNode u → vget v.visited (c.toIdx u) = some (decide (u ∈ seen))

variable {st : State Int W} {v : Vectors W} {seen : List Int} {cost : W}

/-- What the queue takes next. -/
theorem Mirrors.pop [LinearOrder W] (mirrors : Mirrors c g st v seen) (copies : Copies c g) :
    PriorityQueue.pop v.pq = (PriorityQueue.pop st.queue).map fun top =>
      (entry c top.1, top.2.map (entry c)) := by
  rw [mirrors.queue]
  apply PriorityQueue.pop_map
  intro a mem b mem'
  have order := copies.ascending a.2 b.2 (mirrors.nodes a mem) (mirrors.nodes b mem')
  simp only [PriorityQueue.less, entry, order]

/-- The two walks back. -/
theorem walkBack_both (copies : Copies c g) {l : PathLabels W} {v : Vectors W}
    (parents : ∀ u p, l.parent.find u = some p →
      g.hasNode u ∧ vget v.parent (c.toIdx u) = some (c.toIdx p))
    {cur : Int} (leads : Leads (-1) l.parent.find cur) :
    ∃ N nodes rels, ∀ fuel, N ≤ fuel →
      Dijkstra.walkBack l.parent l.viaRel fuel cur = some (nodes, rels) ∧
        CsrBfs.walkBack c v.parent fuel (c.toIdx cur) = some nodes := by
  have mark : c.toIdx (-1) = -1 := if_pos (Or.inl (by norm_num))
  induction leads with
  | done =>
    refine ⟨1, [], [], ?_⟩
    intro fuel enough
    obtain ⟨fuel, rfl⟩ := Nat.exists_eq_add_of_le' enough
    rw [Dijkstra.walkBack, if_pos rfl, mark, CsrBfs.walkBack, if_pos rfl]
    exact ⟨rfl, rfl⟩
  | @next cur p here leads ih =>
    obtain ⟨N, nodes, rels, walks⟩ := ih
    obtain ⟨isNode, parent⟩ := parents cur p here
    have low := (copies.number cur isNode).1
    have other : cur ≠ -1 := by
      rintro rfl
      omega
    refine ⟨N + 1, cur :: nodes, (if p = -1 then [] else [(l.viaRel.find cur).getD []]) ++ rels, ?_⟩
    intro fuel enough
    obtain ⟨fuel, rfl⟩ := Nat.exists_eq_add_of_le' (Nat.le_of_add_left_le enough)
    obtain ⟨walk, walk'⟩ := walks fuel (by omega)
    constructor
    · rw [Dijkstra.walkBack, if_neg other]
      simp only [here, Option.getD_some, walk, Option.map_some]
    · rw [CsrBfs.walkBack, if_neg (by omega), copies.named cur isNode, parent]
      simp only [Option.bind_eq_bind, Option.bind_some, walk']

section
variable [AddCommGroup W] [LinearOrder W]

/-- One edge that is relaxed in both searches. -/
theorem Mirrors.relax (mirrors : Mirrors c g st v seen) (copies : Copies c g) (cost : W)
    (node : Int) {k : Int} {edge : Edge W} (slot : HasEdge c k edge) (node' : g.hasNode edge.toId) :
    ∃ v', relaxSlot c cost (c.toIdx node) v k = some v' ∧
      Mirrors c g (improve cost node st (arc edge)) v' seen := by
  have read := mirrors.dist edge.toId node'
  have unfolded : relaxSlot c cost (c.toIdx node) v k =
      if Worse (st.dist edge.toId) (cost + edge.weight) then do
        let dist ← vset v.dist (c.toIdx edge.toId) (some (cost + edge.weight))
        let parent ← vset v.parent (c.toIdx edge.toId) (c.toIdx node)
        some { v with
          dist := dist
          parent := parent
          pq := (cost + edge.weight, c.toIdx edge.toId) :: v.pq }
      else some v := by
    simp only [relaxSlot, slot.target, slot.weight, Option.bind_eq_bind, Option.bind_some, read,
      improves_eq, decide_eq_true_eq]
  by_cases worse : Worse (st.dist edge.toId) (cost + edge.weight)
  · have improved : improve cost node st (arc edge) =
        { dist := Function.update st.dist edge.toId (some (cost + edge.weight))
          parent := Function.update st.parent edge.toId (some node)
          queue := (cost + edge.weight, edge.toId) :: st.queue } := if_pos worse
    rw [unfolded, if_pos worse, improved]
    obtain ⟨low, high⟩ := vget_isSome.mp (Option.isSome_iff_exists.mpr ⟨_, read⟩)
    obtain ⟨dist, stored⟩ := vset_isSome low high (some (cost + edge.weight))
    obtain ⟨parent, stored'⟩ := vset_isSome low (mirrors.room edge.toId node') (c.toIdx node)
    have apart : ∀ u, g.hasNode u → u ≠ edge.toId → c.toIdx u ≠ c.toIdx edge.toId :=
      fun u isNode => mt (copies.toIdx_inj isNode node').mp
    refine ⟨{ v with
      dist := dist
      parent := parent
      pq := (cost + edge.weight, c.toIdx edge.toId) :: v.pq }, by rw [stored, stored']; rfl,
      ?_, ?_, ?_, ?_, ?_, mirrors.visited⟩
    · rw [mirrors.queue]
      rfl
    · intro e mem
      rcases List.mem_cons.mp mem with rfl | old
      · exact node'
      · exact mirrors.nodes e old
    · intro u isNode
      change vget dist (c.toIdx u) =
        some (Function.update st.dist edge.toId (some (cost + edge.weight)) u)
      rw [vget_vset stored, Function.update_apply]
      by_cases same : u = edge.toId
      · simp [same]
      · rw [if_neg (apart u isNode same), if_neg same, mirrors.dist u isNode]
    · intro u p here
      change Function.update st.parent edge.toId (some node) u = some p at here
      rw [Function.update_apply] at here
      rw [vget_vset stored']
      by_cases same : u = edge.toId
      · rw [if_pos same, Option.some_inj] at here
        rw [if_pos (by rw [same]), same, here]
        exact ⟨node', rfl⟩
      · rw [if_neg same] at here
        obtain ⟨isNode, old⟩ := mirrors.parent u p here
        rw [if_neg (apart u isNode same)]
        exact ⟨isNode, old⟩
    · intro u isNode
      rw [length_vset stored']
      exact mirrors.room u isNode
  · have kept : improve cost node st (arc edge) = st := if_neg worse
    rw [unfolded, if_neg worse, kept]
    exact ⟨v, rfl, mirrors⟩

/-- The loop over a range. -/
theorem Mirrors.expand (copies : Copies c g) (cost : W) (node : Int) {ks : List Int} {edges : List (Edge W)}
    (slots : List.Forall₂ (HasEdge c) ks edges) (inner : ∀ edge ∈ edges, g.hasNode edge.toId)
    (mirrors : Mirrors c g st v seen) :
    ∃ v', ks.foldlM (relaxSlot c cost (c.toIdx node)) v = some v' ∧
      Mirrors c g (expand cost node st (edges.map arc)) v' seen := by
  induction slots generalizing st v with
  | nil => exact ⟨v, rfl, mirrors⟩
  | cons slot slots ih =>
    obtain ⟨v', first, mirrors'⟩ := mirrors.relax copies cost node slot
      (inner _ List.mem_cons_self)
    obtain ⟨v'', rest, mirrors''⟩ :=
      ih (fun edge later => inner edge (List.mem_cons_of_mem _ later)) mirrors'
    refine ⟨v'', ?_, mirrors''⟩
    rw [List.foldlM_cons, first]
    exact rest

/-- One iteration at a node that is not the target. -/
theorem Mirrors.step (mirrors : Mirrors c g st v seen) (copies : Copies c g)
    (isTarget : g.hasNode target) {rest : List (W × Int)}
    (popped : PriorityQueue.pop st.queue = some ((cost, node), rest)) (other : node ≠ target)
    (skipped : node ∈ seen ↔ Stale (st.dist node) cost) :
    ∃ v', (∀ fuel, loop c (c.toIdx target) (fuel + 1) v = loop c (c.toIdx target) fuel v') ∧
      Mirrors c g (settle (arrows g []) cost node rest st) v' (node :: seen) := by
  have popped' := mirrors.pop copies
  rw [popped, Option.map_some] at popped'
  have next := PriorityQueue.pop_perm popped
  have isNode : g.hasNode node := mirrors.nodes (cost, node) (next.mem_iff.mpr List.mem_cons_self)
  have apart : c.toIdx node ≠ c.toIdx target := mt (copies.toIdx_inj isNode isTarget).mp other
  have read := mirrors.visited node isNode
  have rests : ∀ e ∈ rest, g.hasNode e.2 :=
    fun e mem => mirrors.nodes e (next.mem_iff.mpr (List.mem_cons_of_mem _ mem))
  by_cases old : node ∈ seen
  · rw [decide_eq_true old] at read
    refine ⟨{ v with pq := rest.map (entry c) }, ?_, ?_⟩
    · intro fuel
      rw [loop, popped']
      simp only [entry, if_neg apart, read, Option.bind_eq_bind, Option.bind_some, if_true]
    · rw [settle, if_pos (skipped.mp old)]
      refine ⟨rfl, rests, mirrors.dist, mirrors.parent, mirrors.room, ?_⟩
      intro u isNode'
      have same : u ∈ node :: seen ↔ u ∈ seen := by
        rw [List.mem_cons]
        exact ⟨fun either => either.elim (fun equal => equal ▸ old) id, Or.inr⟩
      rw [mirrors.visited u isNode', decide_eq_decide.mpr same]
  · rw [decide_eq_false old] at read
    obtain ⟨low, high⟩ := vget_isSome.mp (Option.isSome_iff_exists.mpr ⟨_, read⟩)
    obtain ⟨visited, stored⟩ := vset_isSome low high true
    have start : Mirrors c g { st with queue := rest }
        { v with visited := visited, pq := rest.map (entry c) } (node :: seen) := by
      refine ⟨rfl, rests, mirrors.dist, mirrors.parent, mirrors.room, ?_⟩
      intro u isNode'
      rw [vget_vset stored]
      by_cases same : u = node
      · simp [same]
      · rw [if_neg (mt (copies.toIdx_inj isNode' isNode).mp same), mirrors.visited u isNode']
        simp [same]
    obtain ⟨first, last, range, slots⟩ := copies.slots node isNode
    obtain ⟨v', ran, mirrors'⟩ := start.expand copies cost node slots
      (copies.inner node)
    refine ⟨v', ?_, ?_⟩
    · intro fuel
      rw [loop, popped']
      simp only [entry, if_neg apart, read, Option.bind_eq_bind, Option.bind_some,
        Bool.false_eq_true, if_false, stored, range, ran]
    · rw [settle, if_neg (mt skipped.mpr old), arrows_nil]
      exact mirrors'

section
variable [IsOrderedAddMonoid W]

/-- What both loops come to: no path, or one of the nodes `nodes` and of the weight `cost`. -/
structure Ends (g : DynamicGraph W) (c : CSRGraph W) (target : Int) (l : PathLabels W)
    (v : Vectors W) (nodes : List Int) (cost : W) : Prop where
  path : ∃ N rels, ∀ fuel, N ≤ fuel →
    pathLoop g [] target fuel l = some ⟨nodes.reverse, rels, cost⟩
  copy : ∃ N v', (∀ fuel, N ≤ fuel → loop c (c.toIdx target) fuel v = some v') ∧
    (nodes = [] ∧ cost = 0 ∧ vget v'.dist (c.toIdx target) = some none ∨
      vget v'.dist (c.toIdx target) = some (some cost) ∧
      ∀ fuel, N ≤ fuel → CsrBfs.walkBack c v'.parent fuel (c.toIdx target) = some nodes)

/-- Both loops from corresponding states to the end. -/
theorem loops_spec (copies : Copies c g)
    (nonneg : ∀ u, ∀ edge ∈ g.neighbors u, 0 ≤ edge.weight) (isTarget : g.hasNode target) (n : Nat)
    {l : PathLabels W} {m : W} (mirrors : Mirrors c g l.state v seen)
    (sound : Sound (arrows g []) source (-1) l.state)
    (ahead : Ahead (fun u => u ∈ seen) m l.state) (missing : target ∉ seen)
    (bound : budget (costs (arrows g []) source (endpoints g source)) (endpoints g source)
      l.state < n) : ∃ nodes cost, Ends g c target l v nodes cost := by
  have weights := arrows_nonneg [] nonneg
  have cycles : NoNegativeCycle (arrows g []) source := noNegativeCycle_of_nonneg weights
  induction n generalizing l v seen m with
  | zero => exact absurd bound (Nat.not_lt_zero _)
  | succ n ih =>
    have popped' := mirrors.pop copies
    cases popped : PriorityQueue.pop l.pq with
    | none =>
      rw [show PriorityQueue.pop l.state.queue = none from popped, Option.map_none] at popped'
      -- A label of the target would still be in the queue.
      have unlabelled : l.state.dist target = none := by
        cases label : l.state.dist target with
        | none => rfl
        | some d =>
          have waiting := ahead.waiting target d label missing
          rw [show l.state.queue = [] from PriorityQueue.pop_eq_none popped] at waiting
          cases waiting
      refine ⟨[], 0, ⟨1, [], ?_⟩, 1, v, ?_, Or.inl ⟨rfl, rfl, ?_⟩⟩
      · intro fuel enough
        obtain ⟨fuel, rfl⟩ := Nat.exists_eq_add_of_le' enough
        rw [pathLoop, popped]
        rfl
      · intro fuel enough
        obtain ⟨fuel, rfl⟩ := Nat.exists_eq_add_of_le' enough
        rw [loop, popped']
      · rw [mirrors.dist target isTarget, unlabelled]
    | some top =>
      obtain ⟨⟨cost, node⟩, pq⟩ := top
      have next := PriorityQueue.pop_perm popped
      have least : ∀ e ∈ l.state.queue, cost ≤ e.1 := fun e mem =>
        Prod.Lex.monotone_fst (toLex (cost, node)) (toLex e) (PriorityQueue.pop_least popped e mem)
      obtain ⟨known, unknown⟩ := ahead.taken next least
      by_cases reached : node = target
      · subst reached
        rw [show PriorityQueue.pop l.state.queue = _ from popped, Option.map_some] at popped'
        have label := unknown missing
        obtain ⟨N, nodes, rels, walks⟩ := walkBack_both copies mirrors.parent
          (sound.leads node cost label)
        refine ⟨nodes, cost, ⟨N + 1, rels.reverse, ?_⟩, N + 1, { v with pq := pq.map (entry c) }, ?_,
          Or.inr ⟨?_, ?_⟩⟩
        · intro fuel enough
          obtain ⟨fuel, rfl⟩ := Nat.exists_eq_add_of_le' (Nat.le_of_add_left_le enough)
          rw [pathLoop, popped]
          simp only [if_true, (walks fuel (by omega)).1, Option.map_some]
        · intro fuel enough
          obtain ⟨fuel, rfl⟩ := Nat.exists_eq_add_of_le' (Nat.le_of_add_left_le enough)
          rw [loop, popped']
          simp only [entry, if_true]
        · rw [mirrors.dist node isTarget, label]
        · intro fuel enough
          exact (walks fuel (by omega)).2
      · have skipped : node ∈ seen ↔ Stale (l.state.dist node) cost := by
          refine ⟨known, ?_⟩
          intro stale
          by_contra new
          obtain ⟨d, here, less⟩ := stale
          rw [unknown new, Option.some_inj] at here
          exact less.ne here.symm
        obtain ⟨l', state, step⟩ := pathLoop_step (g := g) [] popped reached
        obtain ⟨v', step', mirrors'⟩ := mirrors.step copies isTarget popped reached skipped
        obtain ⟨sound', fewer⟩ := sound.settle (closed_endpoints g [] source) cycles next
        have ahead' : Ahead (fun u => u = node ∨ u ∈ seen) cost
            (settle (arrows g []) cost node pq l.state) := ahead.settle next least (weights node)
        simp only [← List.mem_cons] at ahead'
        rw [← state] at mirrors' sound' fewer ahead'
        have missing' : target ∉ node :: seen := by
          rw [List.mem_cons, not_or]
          exact ⟨Ne.symm reached, missing⟩
        obtain ⟨nodes, cost', ⟨N, rels, path⟩, N', v'', ran, copy⟩ :=
          ih mirrors' sound' ahead' missing' (by omega)
        refine ⟨nodes, cost', ⟨N + 1, rels, ?_⟩, N' + 1, v'', ?_, ?_⟩
        · intro fuel enough
          obtain ⟨fuel, rfl⟩ := Nat.exists_eq_add_of_le' (Nat.le_of_add_left_le enough)
          rw [step]
          exact path fuel (by omega)
        · intro fuel enough
          obtain ⟨fuel, rfl⟩ := Nat.exists_eq_add_of_le' (Nat.le_of_add_left_le enough)
          rw [step']
          exact ran fuel (by omega)
        · exact copy.imp_right fun both => ⟨both.1, fun fuel enough => both.2 fuel (by omega)⟩

omit [LinearOrder W] [IsOrderedAddMonoid W] in
/-- The vectors before the loop. -/
theorem mirrors_initial (copies : Copies c g) (isNode : g.hasNode source) {dist : List (Option W)}
    (stored : vset (List.replicate c.nodeCount.toNat none) (c.toIdx source) (some 0) = some dist) :
    Mirrors c g (initial source (-1)) ⟨dist, List.replicate c.nodeCount.toNat (-1),
      List.replicate c.nodeCount.toNat false, [(0, c.toIdx source)]⟩ [] := by
  have blank : ∀ u, g.hasNode u → 0 ≤ c.toIdx u ∧ c.toIdx u < (c.nodeCount.toNat : Int) := by
    intro u node'
    have := copies.number u node'
    omega
  refine ⟨rfl, ?_, ?_, ?_, ?_, ?_⟩
  · intro e mem
    rw [List.mem_singleton.mp mem]
    exact isNode
  · intro u node'
    change vget dist (c.toIdx u) = some (if u = source then some 0 else none)
    rw [vget_vset stored]
    by_cases same : u = source
    · simp [same]
    · rw [if_neg (mt (copies.toIdx_inj node' isNode).mp same), if_neg same, vget_replicate,
        if_pos (blank u node')]
  · intro u p here
    rcases ite_eq_iff.mp here with ⟨rfl, mark⟩ | ⟨-, none⟩
    · cases mark
      rw [vget_replicate, if_pos (blank u isNode)]
      exact ⟨isNode, congrArg some (if_pos (Or.inl (by norm_num))).symm⟩
    · cases none
  · intro u node'
    rw [List.length_replicate]
    exact (blank u node').2
  · intro u node'
    rw [vget_replicate, if_pos (blank u node')]
    rfl

/-- On a copy of a graph without negative weights both functions return one path. -/
theorem paths_same (copies : Copies c g)
    (nonneg : ∀ u, ∀ edge ∈ g.neighbors u, 0 ≤ edge.weight) (isNode : g.hasNode source)
    (isTarget : g.hasNode target) : ∃ nodes cost N, ∀ fuel, N ≤ fuel →
      (∃ rels, dijkstraPath fuel g source target [] = some ⟨nodes, rels, cost⟩) ∧
      dijkstraPathCsr fuel c source target = Outcome.returned ⟨nodes, [], cost⟩ := by
  obtain ⟨low, high⟩ := copies.number source isNode
  have low' := (copies.number target isTarget).1
  obtain ⟨dist, stored⟩ := vset_isSome (v := List.replicate c.nodeCount.toNat (none : Option W))
    low (by rw [List.length_replicate]; omega) (some 0)
  have mirrors := mirrors_initial copies isNode stored
  have sound := sound_initial (arrows g []) source (-1)
  have ahead : Ahead (fun u => u ∈ ([] : List Int)) 0 (initial source (-1) : State Int W) := by
    simpa only [List.not_mem_nil] using ahead_initial source (-1)
  rw [← state_start] at mirrors sound ahead
  obtain ⟨nodes, cost, ⟨N, rels, path⟩, N', v, ran, copy⟩ :=
    loops_spec (l := { start source with viaRel := ∅ }) copies nonneg isTarget _ mirrors sound ahead
      List.not_mem_nil (Nat.lt_succ_self _)
  refine ⟨nodes.reverse, cost, max N N', ?_⟩
  intro fuel enough
  refine ⟨⟨rels, path fuel (le_of_max_le_left enough)⟩, ?_⟩
  have enough' := le_of_max_le_right enough
  have room : 0 ≤ c.nodeCount := low.trans high.le
  simp only [dijkstraPathCsr]
  rw [if_neg (by omega)]
  refine Outcome.bind_eq_returned.mpr ⟨_, vnew_eq_returned.mpr ⟨room, rfl⟩, ?_⟩
  refine Outcome.bind_eq_returned.mpr ⟨_, vnew_eq_returned.mpr ⟨room, rfl⟩, ?_⟩
  refine Outcome.bind_eq_returned.mpr ⟨_, vnew_eq_returned.mpr ⟨room, rfl⟩, ?_⟩
  rw [Outcome.ofOption_eq_returned, stored, Option.bind_eq_bind, Option.bind_some,
    ran fuel enough', Option.bind_eq_bind, Option.bind_some]
  rcases copy with ⟨rfl, rfl, unlabelled⟩ | ⟨label, walk⟩
  · rw [unlabelled]
    rfl
  · rw [label, walk fuel enough']
    rfl

end

end

end FastGraph.CsrDijkstra

namespace FastGraph.GraphEngine
open CSRGraph

section
variable {W D : Type} [AddCommGroup W] [LinearOrder W] [IsOrderedAddMonoid W] [BEq D] [LT D]
  [DecidableLT D] {e : GraphEngine W D}

/-- `csr()` and both searches for a cheapest path return, and the searches return the same nodes
and the same cost. -/
def SameCheapest (e : GraphEngine W D) (order : IterOrder) (s t : Int) : Prop :=
  ∃ e' c nodes cost, e.csr order = Outcome.returned (e', c) ∧ ∃ N, ∀ fuel, N ≤ fuel →
    (∃ rels, dijkstraPath fuel e.graph s t [] = some ⟨nodes, rels, cost⟩) ∧
      dijkstraPathCsr fuel c s t = Outcome.returned ⟨nodes, [], cost⟩

/-- Without negative weights the two searches agree exactly if the graph can be compacted. -/
theorem sameCheapest_iff (reached : CsrReachable e) (joined : Joined e.graph)
    (nonneg : ∀ u, ∀ edge ∈ e.graph.neighbors u, 0 ≤ edge.weight) (order : IterOrder) {s t : Int}
    (node : e.graph.hasNode s) (node' : e.graph.hasNode t) :
    SameCheapest e order s t ↔ Compactable e.graph := by
  constructor
  · rintro ⟨e', c, -, -, stepped, -⟩
    exact (copies_of_csr reached joined stepped node).1
  · intro compactable
    obtain ⟨e', c, stepped, -⟩ := reached.cached.describes compactable order
    have copies := (copies_of_csr reached joined stepped node).2
    obtain ⟨nodes, cost, same⟩ := CsrDijkstra.paths_same copies nonneg node node'
    exact ⟨e', c, nodes, cost, stepped, same⟩

end

theorem sameCheapest_iff_linkedPair : SameCheapest linkedPair .asListed 1 5 :=
  (sameCheapest_iff linkedPair_reachable (by decide)
    (forall_edges_iff.mpr (by decide)) .asListed (by decide)
    (by decide)).mpr (by decide)

/-- A node with the largest `int` as its id. -/
def largestNode : GraphEngine Int Int := empty.addNode (2 ^ 31 - 1) (str "a") []

/-- `dijkstra_path` returns the path of that node to itself, and `csr()` does not return: the number
of the elements of `id_to_idx` is no `int`. -/
theorem csr_overflows : CsrReachable largestNode ∧ Joined largestNode.graph ∧
    (∀ u, ∀ edge ∈ largestNode.graph.neighbors u, 0 ≤ edge.weight) ∧
    largestNode.graph.hasNode (2 ^ 31 - 1) ∧
    dijkstraPath 3 largestNode.graph (2 ^ 31 - 1) (2 ^ 31 - 1) [] = some ⟨[2 ^ 31 - 1], [], 0⟩ ∧
    (∀ e' c, largestNode.csr .asListed ≠ Outcome.returned (e', c)) ∧
    ¬ SameCheapest largestNode .asListed (2 ^ 31 - 1) (2 ^ 31 - 1) := by
  have reached : CsrReachable largestNode :=
    CsrReachable.empty.addNode (2 ^ 31 - 1) (str "a") [] (by norm_num) (by norm_num)
  have joined : Joined largestNode.graph := by decide
  have node : largestNode.graph.hasNode (2 ^ 31 - 1) := by decide
  have fails : ∀ e' c, largestNode.csr .asListed ≠ Outcome.returned (e', c) := by
    intro e' c stepped
    have small := (copies_of_csr reached joined stepped node).1.ids (2 ^ 31 - 1) node
    exact lt_irrefl _ small
  refine ⟨reached, joined, forall_edges_iff.mpr (by decide), node, by decide, fails, ?_⟩
  rintro ⟨e', c, -, -, stepped, -⟩
  exact fails e' c stepped

end FastGraph.GraphEngine
