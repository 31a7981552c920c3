import FastGraph.Graph.Proofs.Paths
import FastGraph.Graph.Proofs.Copies
import FastGraph.Memory.Proofs.StringPool

/-!
# Shortest paths

Where its arrays have room, `bfs_path` returns a path with the fewest edges and their relations. The
names of the relations go into an array of their own, and only when the search leaves the source.
-/

namespace FastGraph.BfsArrays
open BreadthFirst

variable {W : Type} {g : DynamicGraph W} {a a' : BfsArrays} {rel : Bytes} {source target node : Int}

/-! ### The relations -/

/-- A relation that is stored belongs to an edge from the node that is stored as the parent. -/
def Named (g : DynamicGraph W) (rel : Bytes) (a : BfsArrays) : Prop :=
  ∀ x u via, vget a.parent x = some (some u) → u ≠ -1 → vget a.viaRel x = some (some via) →
    ∃ edge ∈ g.neighbors u, passes rel edge ∧ edge.toId = x ∧ edge.relType = via

theorem visitEdge_named (named : Named g rel a) {edge : Edge W} (among : edge ∈ g.neighbors node)
    {found : Bool} (visited : visitEdge rel target node a edge = Outcome.returned (a', found)) :
    Named g rel a' := by
  by_cases matching : passes rel edge
  · rw [visitEdge_eq matching, Outcome.bind_eq_returned] at visited
    obtain ⟨seen, -, rest⟩ := visited
    split at rest
    · cases rest
      exact named
    · obtain ⟨_, -, rest⟩ := Outcome.bind_eq_returned.mp rest
      obtain ⟨parent, stored, rest⟩ := Outcome.bind_eq_returned.mp rest
      obtain ⟨viaRel, stored', rest⟩ := Outcome.bind_eq_returned.mp rest
      rw [aset_eq_returned] at stored stored'
      have arrays : a'.parent = parent ∧ a'.viaRel = viaRel := by
        split at rest
        · cases rest
          exact ⟨rfl, rfl⟩
        · obtain ⟨_, queued, rest⟩ := Outcome.bind_eq_returned.mp rest
          obtain ⟨_, -, last⟩ := Outcome.bind_eq_returned.mp queued
          cases rest
          cases last
          exact ⟨rfl, rfl⟩
      intro x u via
      rw [arrays.1, arrays.2, vget_vset stored, vget_vset stored']
      by_cases here : x = edge.toId
      · rw [if_pos here, if_pos here]
        intro same _ same'
        cases same
        cases same'
        exact ⟨edge, among, matching, here.symm, rfl⟩
      · rw [if_neg here, if_neg here]
        exact named x u via
  · rw [visitEdge_filtered matching] at visited
    cases visited
    exact named

theorem visitEdges_named (named : Named g rel a) {edges : List (Edge W)}
    (among : ∀ edge ∈ edges, edge ∈ g.neighbors node) {found : Bool}
    (visited : visitEdges rel target node a edges = Outcome.returned (a', found)) :
    Named g rel a' := by
  induction edges generalizing a with
  | nil =>
    cases visited
    exact named
  | cons edge edges ih =>
    rw [visitEdges, Outcome.bind_eq_returned] at visited
    obtain ⟨⟨b, stop⟩, first, rest⟩ := visited
    have named' := visitEdge_named named (among edge List.mem_cons_self) first
    cases stop with
    | true =>
      cases rest
      exact named'
    | false => exact ih named' (fun e later => among e (List.mem_cons_of_mem _ later)) rest

/-- Relations of edges that lead along the nodes, both from the last one. -/
inductive Linked (g : DynamicGraph W) (rel : Bytes) : List Int → List Bytes → Prop where
  | nil : Linked g rel [] []
  | last (x : Int) : Linked g rel [x] []
  | link {u : Int} {l : List Int} {rels : List Bytes} {edge : Edge W}
      (linked : Linked g rel (u :: l) rels) (among : edge ∈ g.neighbors u)
      (matching : passes rel edge) : Linked g rel (edge.toId :: u :: l) (edge.relType :: rels)

theorem walkBack_linked (named : Named g rel a) {fuel : Nat} {cur : Int} {path : PathResult}
    (walked : walkBack a fuel cur = Outcome.returned path) :
    Linked g rel path.nodes path.rels ∧ (cur ≠ -1 → ∃ l, path.nodes = cur :: l) := by
  induction fuel generalizing cur path with
  | zero => cases walked
  | succ fuel ih =>
    rw [walkBack] at walked
    split at walked
    · rename_i stop
      cases walked
      exact ⟨.nil, fun more => absurd stop more⟩
    · obtain ⟨p, read, rest⟩ := Outcome.bind_eq_returned.mp walked
      obtain ⟨parent, known, rest⟩ := Outcome.bind_eq_returned.mp rest
      rw [Outcome.ofOption_eq_returned] at known
      rw [aget_eq_returned, known] at read
      dsimp only at rest
      split at rest
      · rename_i first
        subst first
        cases fuel with
        | zero => cases rest
        | succ fuel =>
          cases rest
          exact ⟨.last cur, fun _ => ⟨[], rfl⟩⟩
      · rename_i inner
        obtain ⟨v, read', rest⟩ := Outcome.bind_eq_returned.mp rest
        obtain ⟨via, known', rest⟩ := Outcome.bind_eq_returned.mp rest
        obtain ⟨names, single, rest⟩ := Outcome.bind_eq_returned.mp rest
        obtain ⟨before, back, same⟩ := Outcome.bind_eq_returned.mp rest
        cases single
        cases same
        refine ⟨?_, fun _ => ⟨_, rfl⟩⟩
        obtain ⟨linked, begins⟩ := ih back
        rw [Outcome.ofOption_eq_returned] at known'
        rw [aget_eq_returned, known'] at read'
        obtain ⟨edge, among, matching, rfl, rfl⟩ := named cur parent via read inner read'
        obtain ⟨l, nodes⟩ := begins inner
        rw [nodes] at linked ⊢
        exact .link linked among matching

/-- The relations of a path that the loop returns. -/
theorem search_linked (named : Named g rel a) {fuel : Nat} {path : PathResult}
    (returned : search g rel target fuel a = Outcome.returned path) :
    Linked g rel path.nodes.reverse path.rels.reverse := by
  induction fuel generalizing a with
  | zero => cases returned
  | succ fuel ih =>
    rw [search] at returned
    split at returned
    · obtain ⟨entry, -, rest⟩ := Outcome.bind_eq_returned.mp returned
      obtain ⟨node, -, rest⟩ := Outcome.bind_eq_returned.mp rest
      obtain ⟨⟨b, found⟩, visited, rest⟩ := Outcome.bind_eq_returned.mp rest
      have start : Named g rel { a with head := a.head + 1 } := named
      have named' := visitEdges_named start (fun _ mem => mem) visited
      cases found with
      | true =>
        obtain ⟨walk, walked, same⟩ := Outcome.bind_eq_returned.mp rest
        cases same
        rw [List.reverse_reverse, List.reverse_reverse]
        exact (walkBack_linked named' walked).1
      | false => exact ih named' rest
    · cases returned
      exact .nil

/-- The walk back and the relations make a path. -/
theorem Linked.path {met : Int → Int → Prop} {v : Int} {l : List Int} {rels : List Bytes}
    (linked : Linked g rel l rels) (back : Back met source v l) :
    ∃ edges, Path g rel source v l.reverse edges ∧ edges.map Edge.relType = rels.reverse := by
  induction back generalizing rels with
  | source =>
    cases linked with
    | last => exact ⟨[], .start, rfl⟩
  | @step u' x l first back ih =>
    cases linked with
    | last => cases back
    | @link u l rels edge linked among matching =>
      obtain ⟨edges, path, names⟩ := ih linked
      -- the walk back from a node begins with it
      have same : u = u' := by
        cases back with
        | source => rfl
        | step => rfl
      subst same
      refine ⟨edges ++ [edge], ?_, ?_⟩
      · rw [List.reverse_cons]
        exact path.step among matching
      · rw [List.map_append, names, List.reverse_cons]
        rfl

/-! ### Shortest paths -/

/-- What `bfs_path` returns: a path with the fewest edges and their relations if there is one. -/
structure Shortest (g : DynamicGraph W) (rel : Bytes) (source target : Int) (path : PathResult) :
    Prop where
  found : path.empty = false ↔ Reaches g rel source target
  fewest : path.empty = false → path.rels.length + 1 = path.nodes.length ∧
    ∃ edges, Path g rel source target path.nodes edges ∧ edges.map Edge.relType = path.rels ∧
      ∀ nodes' edges', Path g rel source target nodes' edges' → edges.length ≤ edges'.length

end FastGraph.BfsArrays

namespace FastGraph

theorem Path.length_nodes {W : Type} {g : DynamicGraph W} {rel : Bytes} {source v : Int}
    {nodes : List Int} {edges : List (Edge W)} (path : Path g rel source v nodes edges) :
    nodes.length = edges.length + 1 := by
  induction path with
  | start => rfl
  | step path among matching ih =>
    rw [List.length_append, List.length_append, ih]
    rfl

end FastGraph

namespace FastGraph.BfsArrays
open BreadthFirst

variable {W : Type} {g : DynamicGraph W} {a a' : BfsArrays} {rel : Bytes} {source target : Int}

theorem shortest_of_finds (differ : source ≠ target) {path : PathResult}
    (finds : Finds (successors g rel) source target path.nodes)
    (linked : Linked g rel path.nodes.reverse path.rels.reverse) :
    Shortest g rel source target path := by
  generalize nodes : path.nodes = l at finds
  cases finds with
  | nothing search =>
    have empty : path.empty = true := by rw [PathResult.empty, nodes]; rfl
    have unreachable : ¬ Reaches g rel source target := by
      intro reaches
      obtain ⟨k, level⟩ := reaches.exists_level
      exact search.unreachable differ k level.1
    rw [← Bool.not_eq_false] at empty
    exact ⟨iff_of_false empty unreachable, fun some => absurd some empty⟩
  | @path E P l v search next back =>
    rw [nodes, List.reverse_reverse] at linked
    obtain ⟨edges, path', names⟩ := linked.path back
    rw [List.reverse_reverse] at names
    have some : path.empty = false := by
      rw [PathResult.empty, nodes, ← Bool.not_eq_true, List.isEmpty_iff, List.reverse_eq_nil_iff]
      cases back <;> simp
    refine ⟨iff_of_true some ⟨_, _, path'⟩, fun _ => ⟨?_, edges, nodes ▸ path', names, ?_⟩⟩
    · rw [← names, List.length_map, nodes, path'.length_nodes]
    · intro nodes' edges' other
      obtain ⟨k, level, length⟩ := back.level
      have count := path'.length_nodes
      rw [List.length_reverse] at count
      have := level.le other.layer
      omega

theorem shortest_source : Shortest g rel source source ⟨[source], []⟩ :=
  ⟨iff_of_true rfl ⟨_, _, .start⟩, fun _ => ⟨rfl, [], .start, rfl, fun _ _ _ => Nat.zero_le _⟩⟩

/-- Where all arrays have room for the ids that the search meets, it finds a shortest path. -/
theorem search_shortest {n : Nat} (differ : source ≠ target) (fresh : Fresh a)
    (blank : ∀ x u, vget a.parent x ≠ some (some u)) (room : a.Allocated n)
    (inside : 0 ≤ source ∧ source < n)
    (edges : ∀ u, ∀ edge ∈ g.neighbors u, 0 ≤ edge.toId ∧ edge.toId < n) {fuel : Nat}
    (enough : 2 * n + 2 ≤ fuel) : ∃ path, (do
        let a ← a.start source
        a.search g rel target fuel) = Outcome.returned path ∧ Shortest g rel source target path := by
  obtain ⟨a', started, head, holds⟩ := start_inside (Discovers (successors g rel) source target)
    fresh room inside.1 inside.2
  have met : Inside g rel source target n := by
    intro E v P _ x mem
    obtain ⟨edge, among, -, rfl⟩ := mem_successors.mp (mem_of_mem_upTo mem)
    exact edges v edge among
  obtain ⟨path, returned, finds⟩ := (search_inside met differ .start holds head fuel).2 enough
  have named : Named g rel a' := by
    obtain ⟨queue, visited, parent, -, -, stored, rfl⟩ := start_eq_returned.mp started
    intro x u via known inner
    rw [vget_vset stored] at known
    split at known
    · cases known
      exact absurd rfl inner
    · exact absurd known (blank x u)
  refine ⟨path, ?_, shortest_of_finds differ finds (search_linked named returned)⟩
  rw [started]
  exact returned

/-! ### Without room for the relations -/

theorem visitEdge_unnamed (unnamed : a.viaRel = []) {edge : Edge W} {found : Bool}
    (visited : visitEdge rel target source a edge = Outcome.returned (a', found)) :
    a' = a ∧ found = false ∧ (passes rel edge → vget a.visited edge.toId = some true) := by
  by_cases matching : passes rel edge
  · rw [visitEdge_eq matching] at visited
    obtain ⟨seen, read, rest⟩ := Outcome.bind_eq_returned.mp visited
    rw [aget_eq_returned] at read
    cases seen with
    | true =>
      cases rest
      exact ⟨rfl, rfl, fun _ => read⟩
    | false =>
      obtain ⟨_, -, rest⟩ := Outcome.bind_eq_returned.mp rest
      obtain ⟨_, -, rest⟩ := Outcome.bind_eq_returned.mp rest
      obtain ⟨viaRel, stored, -⟩ := Outcome.bind_eq_returned.mp rest
      have bound := vset_inside (aset_eq_returned.mp stored)
      rw [unnamed, List.length_nil] at bound
      exact absurd bound (by omega)
  · rw [visitEdge_filtered matching] at visited
    cases visited
    exact ⟨rfl, rfl, fun pass => absurd pass matching⟩

/-- The loop over the edges of a node returns exactly if they find nothing. -/
theorem visitEdges_unnamed_iff (unnamed : a.viaRel = []) (edges : List (Edge W)) {found : Bool} :
    visitEdges rel target source a edges = Outcome.returned (a', found) ↔
      a' = a ∧ found = false ∧
        ∀ edge ∈ edges, passes rel edge → vget a.visited edge.toId = some true := by
  induction edges with
  | nil =>
    constructor
    · intro same
      cases same
      simp
    · rintro ⟨rfl, rfl, -⟩
      rfl
  | cons edge edges ih =>
    rw [visitEdges, List.forall_mem_cons]
    constructor
    · intro visited
      obtain ⟨⟨b, stop⟩, first, rest⟩ := Outcome.bind_eq_returned.mp visited
      obtain ⟨rfl, rfl, marked⟩ := visitEdge_unnamed unnamed first
      obtain ⟨same, none, all⟩ := ih.mp rest
      exact ⟨same, none, marked, all⟩
    · rintro ⟨rfl, rfl, marked, all⟩
      have first : visitEdge rel target source a' edge = Outcome.returned (a', false) := by
        by_cases matching : passes rel edge
        · rw [visitEdge_eq matching, aget_eq (marked matching), Outcome.returned_bind, if_pos rfl]
          rfl
        · exact visitEdge_filtered matching
      rw [first, Outcome.returned_bind]
      exact ih.mpr ⟨rfl, rfl, all⟩

/-- A search from the only node in the queue. -/
theorem search_first_unnamed (unnamed : a.viaRel = []) (next : vget a.queue a.head = some (some source))
    (last : a.tail = a.head + 1) (fuel : Nat) (path : PathResult) :
    search g rel target (fuel + 2) a = Outcome.returned path ↔
      (∀ edge ∈ g.neighbors source, passes rel edge → vget a.visited edge.toId = some true) ∧
        path = ⟨[], []⟩ := by
  have ended : ¬ a.head + 1 < a.tail := by omega
  rw [search_next next (by omega), Outcome.bind_eq_returned]
  constructor
  · rintro ⟨⟨b, found⟩, first, rest⟩
    obtain ⟨rfl, rfl, all⟩ :=
      (visitEdges_unnamed_iff (a := { a with head := a.head + 1 }) unnamed _).mp first
    dsimp only at rest
    rw [if_neg (by decide), search, if_neg ended] at rest
    cases rest
    exact ⟨all, rfl⟩
  · rintro ⟨all, rfl⟩
    refine ⟨({ a with head := a.head + 1 }, false),
      (visitEdges_unnamed_iff (a := { a with head := a.head + 1 }) unnamed _).mpr ⟨rfl, rfl, all⟩, ?_⟩
    dsimp only
    rw [if_neg (by decide), search, if_neg ended]
    rfl

/-- No edge leaves the source. -/
def Stays (g : DynamicGraph W) (rel : Bytes) (source : Int) : Prop :=
  ∀ edge ∈ g.neighbors source, passes rel edge → edge.toId = source

/-- Without room for the relations the search returns exactly if no edge leaves the source. -/
theorem search_unnamed_iff {n : Nat} (fresh : Fresh a) (unnamed : a.viaRel = [])
    (inside : 0 ≤ source ∧ source < n) (parent : a.parent.length = n) (visited : a.visited.length = n)
    (queue : a.queue.length = n) {fuel : Nat} (enough : 2 ≤ fuel) (path : PathResult) : (do
        let a ← a.start source
        a.search g rel target fuel) = Outcome.returned path ↔ Stays g rel source ∧ path = ⟨[], []⟩ := by
  obtain ⟨head, tail, unvisited⟩ := fresh
  obtain ⟨q, stored⟩ := vset_isSome (v := a.queue) (i := a.tail) (by omega) (by omega) (some source)
  obtain ⟨m, stored'⟩ := vset_isSome (v := a.visited) inside.1 (by omega) true
  obtain ⟨p, stored''⟩ := vset_isSome (v := a.parent) inside.1 (by omega) (some (-1))
  rw [start_eq_returned.mpr ⟨q, m, p, stored, stored', stored'', rfl⟩, Outcome.returned_bind]
  obtain ⟨fuel, rfl⟩ := Nat.exists_eq_add_of_le' enough
  have next : vget q a.head = some (some source) := by
    rw [vget_vset stored, head, tail, if_pos rfl]
  have marked (x : Int) : vget m x = some true ↔ x = source := by
    rw [vget_vset stored']
    by_cases here : x = source
    · simp [here]
    · rw [if_neg here]
      refine iff_of_false ?_ here
      intro read
      cases unvisited true (List.mem_of_getElem? (vget_eq_some.mp read).2)
  have stays : Stays g rel source ↔
      ∀ edge ∈ g.neighbors source, passes rel edge → vget m edge.toId = some true :=
    forall₂_congr fun edge _ => imp_congr_right fun _ => (marked edge.toId).symm
  rw [stays]
  exact search_first_unnamed
    (a := { a with queue := q, tail := a.tail + 1, visited := m, parent := p }) unnamed next
    (show a.tail + 1 = a.head + 1 by omega) fuel path

theorem Stays.shortest (stays : Stays g rel source) (differ : source ≠ target) :
    Shortest g rel source target ⟨[], []⟩ := by
  have unreachable : ¬ Reaches g rel source target := by
    intro reaches
    refine differ ((reaches_iff.mp reaches).mem (C := fun u => source = u) rfl ?_)
    rintro _ rfl x next
    obtain ⟨edge, among, matching, rfl⟩ := mem_successors.mp next
    exact (stays edge among matching).symm
  exact ⟨iff_of_false (by simp [PathResult.empty]) unreachable, fun some => by cases some⟩

/-! ### Room in the arena -/

section
open Arena

variable {arena : Arena} {n : Nat}

/-- The offset behind the array of parents. -/
def parentEnd (arena : Arena) (n : Nat) : Nat := alignUp arena.used 4 + 4 * n

/-- The offset behind the array of relations. -/
def namesEnd (arena : Arena) (n : Nat) : Nat := alignUp (parentEnd arena n) 8 + 8 * n

/-- There is room for the four arrays. -/
def Roomy (arena : Arena) (n : Nat) : Prop :=
  alignUp (namesEnd arena n + n) 4 + 4 * n ≤ arena.cap

/-- There is room for the three arrays other than that of the relations. -/
def RoomyButNames (arena : Arena) (n : Nat) : Prop :=
  arena.cap < namesEnd arena n ∧ alignUp (parentEnd arena n + n) 4 + 4 * n ≤ arena.cap

/-- A block of `n` elements, computed without wrapping. -/
theorem alloc_elements (arena : Arena) (size align : Nat) (some : 0 < size)
    (small : size * n < 2 ^ 64) : arena.alloc (toSizeT (size * toSizeT n)) align =
      if arena.cap < alignUp arena.used align + size * n then (arena, none)
      else ({ arena with used := alignUp arena.used align + size * n },
        .some (alignUp arena.used align)) := by
  have le : n ≤ size * n := Nat.le_mul_of_pos_left n some
  have count : toSizeT n = n := by
    rw [toSizeT_of_nonneg (by omega) (by omega), Int.toNat_natCast]
  have bytes : toSizeT ((size * n : Nat) : Int) = size * n := by
    rw [toSizeT_of_nonneg (by omega) (by omega), Int.toNat_natCast]
  push_cast at bytes
  simp only [Arena.alloc, count, bytes]

theorem allocArray_eq {α : Type} (arena : Arena) {size : Nat} (align : Nat) (some : 0 < size)
    (small : size * n < 2 ^ 64) (init : α) : arena.allocArray size align n init =
      if arena.cap < alignUp arena.used align + size * n then (arena, [])
      else ({ arena with used := alignUp arena.used align + size * n }, List.replicate n init) := by
  unfold Arena.allocArray
  rw [alloc_elements arena _ align some small]
  by_cases full : arena.cap < alignUp arena.used align + size * n
  · simp only [if_pos full]
  · simp only [if_neg full, Int.toNat_natCast]

theorem length_allocArray {α : Type} (arena : Arena) (size align : Nat) (n : Int) (init : α) :
    (arena.allocArray size align n init).2.length = n.toNat ∨
      (arena.allocArray size align n init).2.length = 0 := by
  unfold Arena.allocArray
  split
  · left
    simp
  · exact Or.inr rfl

/-- Each array has all its elements or none. -/
theorem alloc_lengths (arena : Arena) (n : Int) :
    ((alloc arena n).2.parent.length = n.toNat ∨ (alloc arena n).2.parent.length = 0) ∧
      ((alloc arena n).2.visited.length = n.toNat ∨ (alloc arena n).2.visited.length = 0) ∧
      ((alloc arena n).2.queue.length = n.toNat ∨ (alloc arena n).2.queue.length = 0) :=
  ⟨length_allocArray _ _ _ n _, length_allocArray _ _ _ n _, length_allocArray _ _ _ n _⟩

/-- The last two arrays have all their elements if there is room for both, and only then. -/
theorem lastArrays_length (arena : Arena) (small : n < 2 ^ 31) :
    (alignUp (arena.used + n) 4 + 4 * n ≤ arena.cap →
      (arena.allocArray 1 1 n false).2.length = n ∧
      ((arena.allocArray 1 1 n false).1.allocArray 4 4 n (none : Option Int)).2.length = n) ∧
    (0 < n → (arena.allocArray 1 1 n false).2.length = n →
      ((arena.allocArray 1 1 n false).1.allocArray 4 4 n (none : Option Int)).2.length = n →
      alignUp (arena.used + n) 4 + 4 * n ≤ arena.cap) := by
  have bytes : alignUp arena.used 1 = arena.used := by simp [alignUp]
  have le : arena.used + n ≤ alignUp (arena.used + n) 4 := le_alignUp (by decide)
  rw [allocArray_eq arena 1 (by decide) (by omega), bytes, one_mul]
  by_cases full : arena.cap < arena.used + n
  · rw [if_pos full]
    refine ⟨fun room => absurd room (by omega), fun some visited => ?_⟩
    exact absurd visited.symm some.ne'
  rw [if_neg full]
  dsimp only
  rw [allocArray_eq _ 4 (by decide) (by omega)]
  dsimp only
  by_cases full' : arena.cap < alignUp (arena.used + n) 4 + 4 * n
  · rw [if_pos full']
    refine ⟨fun room => absurd room (by omega), fun some _ queue => ?_⟩
    exact absurd queue.symm some.ne'
  · rw [if_neg full']
    exact ⟨fun _ => ⟨List.length_replicate, List.length_replicate⟩, fun _ _ _ => by omega⟩

/-- What is known of the arrays once each allocation has or has not found room. -/
theorem alloc_cases (arena : Arena) (small : n < 2 ^ 31) :
    (Roomy arena n → (alloc arena n).2.Allocated n) ∧
    (RoomyButNames arena n → (alloc arena n).2.parent.length = n ∧ (alloc arena n).2.viaRel = [] ∧
      (alloc arena n).2.visited.length = n ∧ (alloc arena n).2.queue.length = n) ∧
    (0 < n → (alloc arena n).2.parent.length = n → (alloc arena n).2.visited.length = n →
      (alloc arena n).2.queue.length = n → Roomy arena n ∨ RoomyButNames arena n) := by
  have le₁ : parentEnd arena n ≤ alignUp (parentEnd arena n) 8 := le_alignUp (by decide)
  have le₂ : parentEnd arena n + n ≤ alignUp (parentEnd arena n + n) 4 := le_alignUp (by decide)
  have le₃ : namesEnd arena n + n ≤ alignUp (namesEnd arena n + n) 4 := le_alignUp (by decide)
  have end₁ : alignUp arena.used 4 + 4 * n = parentEnd arena n := rfl
  have end₂ : alignUp (parentEnd arena n) 8 + 8 * n = namesEnd arena n := rfl
  unfold Roomy RoomyButNames
  simp only [alloc]
  rw [allocArray_eq arena 4 (by decide) (by omega), end₁]
  by_cases full₁ : arena.cap < parentEnd arena n
  · rw [if_pos full₁]
    refine ⟨fun room => absurd room (by omega), fun room => absurd room.2 (by omega), ?_⟩
    intro some none
    exact absurd none.symm some.ne'
  rw [if_neg full₁]
  dsimp only
  rw [allocArray_eq _ 8 (by decide) (by omega)]
  dsimp only
  rw [end₂]
  by_cases full₂ : arena.cap < namesEnd arena n
  · rw [if_pos full₂]
    dsimp only
    obtain ⟨fits, room⟩ := lastArrays_length { arena with used := parentEnd arena n } small
    refine ⟨fun room => absurd room (by omega), ?_, ?_⟩
    · rintro ⟨-, room⟩
      exact ⟨List.length_replicate, rfl, fits room⟩
    · intro some _ visited queue
      exact Or.inr ⟨full₂, room some visited queue⟩
  · rw [if_neg full₂]
    dsimp only
    obtain ⟨fits, room⟩ := lastArrays_length { arena with used := namesEnd arena n } small
    refine ⟨?_, fun room => absurd room.1 full₂, ?_⟩
    · intro room
      obtain ⟨visited, queue⟩ := fits room
      exact ⟨by simp, by simp, by simpa using visited, by simpa using queue⟩
    · intro some _ visited queue
      exact Or.inl (room some visited queue)

/-- Where the source has entered the queue there was room for the arrays that it needs, and it is an
index. -/
theorem started_inside {n : Int} {arena : Arena}
    (started : (alloc arena n).2.start source = Outcome.returned a) :
    0 ≤ source ∧ source < n := by
  obtain ⟨queue, visited, parent, -, -, stored, -⟩ := start_eq_returned.mp started
  have inside := vset_inside stored
  obtain ⟨length | length, -, -⟩ := alloc_lengths arena n <;> omega

theorem room_of_started (small : n < 2 ^ 31)
    (started : (alloc arena n).2.start source = Outcome.returned a) :
    Roomy arena n ∨ RoomyButNames arena n := by
  obtain ⟨queue, visited, parent, stored, stored', stored'', -⟩ := start_eq_returned.mp started
  have some {α : Type} {v v' : List α} {i : Int} {x : α} (stored : vset v i x = some v') :
      v.length ≠ 0 := by
    have := vset_inside stored
    omega
  obtain ⟨parents, marks, queues⟩ := alloc_lengths arena n
  obtain ⟨-, -, others⟩ := alloc_cases arena small
  have inside := started_inside started
  exact others (by omega) (parents.resolve_right (some stored''))
    (marks.resolve_right (some stored')) (queues.resolve_right (some stored))

end

end FastGraph.BfsArrays

namespace FastGraph
open BfsArrays

section
variable {W : Type} {g : DynamicGraph W}

instance (g : DynamicGraph W) (id : Int) : Decidable (Indexed g id) :=
  inferInstanceAs (Decidable (0 ≤ id ∧ id ≤ g.maxNodeId))

/-- The elements that each array of `bfs_path` gets. -/
def arraySize (g : DynamicGraph W) : Nat := (g.maxNodeId + 1).toNat

/-- The number of elements is an `int`, and an arena has room for the arrays; it needs none for the
relations if no edge leaves the source. -/
def PathServed (g : DynamicGraph W) (rel : Bytes) (source target : Int) (arena : Option Arena) : Prop :=
  source = target ∨ g.maxNodeId < 2 ^ 31 - 1 ∧ ∀ block, arena = some block →
    Roomy block (arraySize g) ∨ RoomyButNames block (arraySize g) ∧ Stays g rel source

/-- The arrays of a call. -/
def arraysIn : Option Arena → Int → BfsArrays
  | none, n => onHeap n
  | some arena, n => (BfsArrays.alloc arena n).2

theorem blank_arraysIn (arena : Option Arena) (n x u : Int) :
    vget (arraysIn arena n).parent x ≠ some (some u) := by
  intro here
  have mem := List.mem_of_getElem? (vget_eq_some.mp here).2
  cases arena with
  | none => cases (List.mem_replicate.mp mem).2
  | some arena =>
    simp only [arraysIn, BfsArrays.alloc, Arena.allocArray] at mem
    split at mem
    · cases (List.mem_replicate.mp mem).2
    · cases mem

theorem fresh_arraysIn (arena : Option Arena) (n : Int) : Fresh (arraysIn arena n) := by
  cases arena with
  | none => exact fresh_onHeap n
  | some arena => exact fresh_alloc arena n

theorem bfsPathIn_self (fuel : Nat) (g : DynamicGraph W) (source : Int) (rel : Bytes)
    (arena : Option Arena) :
    bfsPathIn fuel g source source rel arena = Outcome.returned ⟨[source], []⟩ := by
  cases arena with
  | none => exact if_pos rfl
  | some arena =>
    rw [bfsPathIn, bfsPath, if_pos rfl]
    rfl

/-- The number of the elements is no `int`. -/
theorem bfsPathIn_stuck {source target : Int} (differ : source ≠ target)
    (overflow : intAdd g.maxNodeId 1 = none) (rel : Bytes) (arena : Option Arena) (fuel : Nat) :
    bfsPathIn fuel g source target rel arena = Outcome.stuck := by
  cases arena with
  | none =>
    rw [bfsPathIn, bfsPathOnHeap, if_neg differ, overflow]
    rfl
  | some arena =>
    rw [bfsPathIn, bfsPath, if_neg differ, overflow]
    rfl

theorem bfsPathIn_eq {source target : Int} (differ : source ≠ target) {n : Int}
    (size : intAdd g.maxNodeId 1 = some n) (rel : Bytes) (arena : Option Arena) (fuel : Nat) :
    bfsPathIn fuel g source target rel arena = (do
      let a ← (arraysIn arena n).start source
      a.search g rel target fuel) := by
  cases arena with
  | none =>
    rw [bfsPathIn, bfsPathOnHeap, if_neg differ, size]
    rfl
  | some arena =>
    rw [bfsPathIn, bfsPath, if_neg differ, size]
    change (do
      let both ← (do
        let a ← (BfsArrays.alloc arena n).2.start source
        let path ← a.search g rel target fuel
        pure ((BfsArrays.alloc arena n).1, path))
      pure both.2) = _
    rw [bind_assoc]
    refine bind_congr fun a => ?_
    rw [bind_assoc]
    exact bind_pure _

/-- With the source and the ends of the edges among the ids, `bfs_path` returns a shortest path exactly
if it is served. -/
theorem bfsPathIn_shortest_iff {source : Int} (target : Int) (rel : Bytes) (arena : Option Arena)
    (isId : Indexed g source) (ids : ∀ u, ∀ edge ∈ g.neighbors u, Indexed g edge.toId) :
    (∃ N, ∀ fuel, N ≤ fuel → ∃ path, bfsPathIn fuel g source target rel arena =
        Outcome.returned path ∧ Shortest g rel source target path) ↔
      PathServed g rel source target arena := by
  by_cases same : source = target
  · subst same
    exact iff_of_true ⟨0, fun fuel _ => ⟨⟨[source], []⟩, bfsPathIn_self fuel g source rel arena,
      shortest_source⟩⟩ (Or.inl rfl)
  rw [PathServed, or_iff_right same]
  have bounds := isId
  rw [Indexed] at bounds
  by_cases small : g.maxNodeId < 2 ^ 31 - 1
  · generalize length : arraySize g = n
    have total : (n : Int) = g.maxNodeId + 1 := by
      rw [← length, arraySize]
      omega
    have size : intAdd g.maxNodeId 1 = some (n : Int) := intAdd_eq_some.mpr ⟨total, by omega, by omega⟩
    have inside : ∀ id, Indexed g id → 0 ≤ id ∧ id < (n : Int) := by
      intro id here
      rw [Indexed] at here
      omega
    have ends : ∀ u, ∀ edge ∈ g.neighbors u, 0 ≤ edge.toId ∧ edge.toId < (n : Int) :=
      fun u edge among => inside _ (ids u edge among)
    have fresh := fresh_arraysIn arena n
    simp only [bfsPathIn_eq same size, small, true_and]
    have found : (arraysIn arena n).Allocated n → ∃ N, ∀ fuel, N ≤ fuel → ∃ path, (do
        let a ← (arraysIn arena n).start source
        a.search g rel target fuel) = Outcome.returned path ∧ Shortest g rel source target path :=
      fun room => ⟨2 * n + 2, fun fuel enough => search_shortest same fresh (blank_arraysIn arena n)
        room (inside source isId) ends enough⟩
    cases arena with
    | none => exact iff_of_true (found (allocated_onHeap n)) (by simp)
    | some block =>
      obtain ⟨roomy, unnamed, -⟩ := alloc_cases (n := n) block (by omega)
      simp only [Option.some.injEq, forall_eq']
      constructor
      · rintro ⟨N, returns⟩
        obtain ⟨path, returned, -⟩ := returns (N + 2) (by omega)
        obtain ⟨a, started, -⟩ := Outcome.bind_eq_returned.mp returned
        refine (room_of_started (by omega) started).imp_right fun most => ⟨most, ?_⟩
        obtain ⟨parent, viaRel, visited, queue⟩ := unnamed most
        exact ((search_unnamed_iff fresh viaRel (inside source isId) parent visited queue
          (by omega) path).mp returned).1
      · rintro (room | ⟨most, stays⟩)
        · exact found (roomy room)
        · obtain ⟨parent, viaRel, visited, queue⟩ := unnamed most
          refine ⟨2, fun fuel enough => ⟨⟨[], []⟩, ?_, stays.shortest same⟩⟩
          exact (search_unnamed_iff fresh viaRel (inside source isId) parent visited queue
            enough _).mpr ⟨stays, rfl⟩
  · refine iff_of_false ?_ fun both => small both.1
    rintro ⟨N, returns⟩
    obtain ⟨path, returned, -⟩ := returns N (le_refl N)
    have overflow : intAdd g.maxNodeId 1 = none := by
      cases sum : intAdd g.maxNodeId 1 with
      | none => rfl
      | some n => exact absurd (intAdd_eq_some.mp sum).2.2 (by omega)
    rw [bfsPathIn_stuck same overflow] at returned
    exact absurd returned Outcome.stuck_ne_returned

end

theorem bfsPathIn_shortest_iff_oneHop :
    (∃ N, ∀ fuel, N ≤ fuel → ∃ path, bfsPathIn fuel oneHop.graph 1 2 (str "r")
        (some oneHop.resetQueryArena.queryArena) = Outcome.returned path ∧
      Shortest oneHop.graph (str "r") 1 2 path) ↔
    PathServed oneHop.graph (str "r") 1 2 (some oneHop.resetQueryArena.queryArena) :=
  bfsPathIn_shortest_iff 2 (str "r") _ (by decide)
    (CSRGraph.forall_edges_iff.mpr (by decide))

/-- A node with the largest `int` as its id. -/
def largestId : DynamicGraph Int := DynamicGraph.run [.addNode (2 ^ 31 - 1) none []] .empty

/-- The number of the elements of its arrays is no `int`. -/
theorem bfsPathIn_overflows :
    Indexed largestId 0 ∧ (∀ u, ∀ edge ∈ largestId.neighbors u, Indexed largestId edge.toId) ∧
      (∀ fuel path, bfsPathIn fuel largestId 0 1 [] none ≠ Outcome.returned path) ∧
      ¬ ∃ N, ∀ fuel, N ≤ fuel → ∃ path, bfsPathIn fuel largestId 0 1 [] none =
        Outcome.returned path ∧ Shortest largestId [] 0 1 path := by
  have stuck : ∀ fuel path, bfsPathIn fuel largestId 0 1 [] none ≠ Outcome.returned path := by
    intro fuel path returned
    have overflow : intAdd largestId.maxNodeId 1 = none := by decide
    rw [bfsPathIn_stuck (by decide) overflow] at returned
    exact absurd returned Outcome.stuck_ne_returned
  refine ⟨by decide, CSRGraph.forall_edges_iff.mpr (by decide), stuck, ?_⟩
  intro ⟨N, returns⟩
  obtain ⟨path, returned, -⟩ := returns N (le_refl N)
  exact stuck N path returned

end FastGraph
