import FastGraph.Graph.Proofs.BfsPath
import FastGraph.Graph.Proofs.GraphEngine

/-!
# The arena of the path queries

`bfs_path` takes four blocks from an arena of 4 MiB that is empty at the start of every query,
and their sizes grow with the largest id that was ever given to `add_node`. All four are found
exactly if that id is at most 246722: the four blocks for 246723 elements end eight bytes before
the end of the arena.
-/

namespace FastGraph

namespace BfsArrays
open Arena
variable {n : Nat}

/-- The elements behind a pointer. -/
def behind {α : Type} (n : Int) (init : α) : Option Nat → List α
  | some _ => List.replicate n.toNat init
  | none => []

theorem allocArray_alloc {α : Type} (arena : Arena) (size align : Nat) (n : Int) (init : α) :
    arena.allocArray size align n init =
      ((arena.alloc (toSizeT (size * toSizeT n)) align).1,
        behind n init (arena.alloc (toSizeT (size * toSizeT n)) align).2) := by
  unfold Arena.allocArray behind
  split
  · rename_i found
    rw [found]
  · rename_i found
    rw [found]

/-- All four blocks are found exactly if there is room for all four. -/
theorem blocks_found_iff (arena : Arena) (small : n < 2 ^ 31) :
    (∀ block ∈ blocks arena n, block ≠ none) ↔ Roomy arena n := by
  have le₁ : parentEnd arena n ≤ alignUp (parentEnd arena n) 8 := le_alignUp (by decide)
  have le₂ : namesEnd arena n + n ≤ alignUp (namesEnd arena n + n) 4 := le_alignUp (by decide)
  have end₁ : alignUp arena.used 4 + 4 * n = parentEnd arena n := rfl
  have end₂ : alignUp (parentEnd arena n) 8 + 8 * n = namesEnd arena n := rfl
  have bytes (used : Nat) : alignUp used 1 = used := by simp [alignUp]
  unfold blocks Roomy
  have first := alloc_elements arena 4 4 (by decide) (show 4 * n < 2 ^ 64 by omega)
  push_cast at first
  rw [first, end₁]
  by_cases full₁ : arena.cap < parentEnd arena n
  · rw [if_pos full₁]
    exact iff_of_false (fun found => found _ (by simp) rfl) (by omega)
  rw [if_neg full₁]
  dsimp only
  have second := alloc_elements { arena with used := parentEnd arena n } 8 8 (by decide)
    (show 8 * n < 2 ^ 64 by omega)
  push_cast at second
  rw [second, end₂]
  by_cases full₂ : arena.cap < namesEnd arena n
  · rw [if_pos full₂]
    exact iff_of_false (fun found => found none (by simp) rfl) (by omega)
  rw [if_neg full₂]
  dsimp only
  have third := alloc_elements { arena with used := namesEnd arena n } 1 1 (by decide)
    (show 1 * n < 2 ^ 64 by omega)
  push_cast at third
  rw [third, bytes, one_mul]
  by_cases full₃ : arena.cap < namesEnd arena n + n
  · rw [if_pos full₃]
    exact iff_of_false (fun found => found none (by simp) rfl) (by omega)
  rw [if_neg full₃]
  dsimp only
  have fourth := alloc_elements { arena with used := namesEnd arena n + n } 4 4
    (by decide) (show 4 * n < 2 ^ 64 by omega)
  push_cast at fourth
  rw [fourth]
  by_cases full₄ : arena.cap < alignUp (namesEnd arena n + n) 4 + 4 * n
  · rw [if_pos full₄]
    exact iff_of_false (fun found => found none (by simp) rfl) (by omega)
  · rw [if_neg full₄]
    exact iff_of_true (by simp) (by omega)

/-- An empty arena of 4 MiB has room for the arrays of 246723 elements and no more. -/
theorem roomy_fresh {arena : Arena} (cap : arena.cap = 4 * 1024 * 1024) :
    Roomy arena.reset n ↔ n ≤ 246723 := by
  simp only [Roomy, namesEnd, parentEnd, alignUp, Arena.reset, cap]
  omega

theorem cap_alloc (arena : Arena) (n : Int) : (alloc arena n).1.cap = arena.cap := by
  have kept (arena : Arena) (size align : Nat) : (arena.alloc size align).1.cap = arena.cap := by
    unfold Arena.alloc
    dsimp only
    split <;> rfl
  unfold alloc
  simp only [allocArray_alloc, kept]

end BfsArrays

namespace GraphEngine
open BfsArrays

section
variable {W D : Type} [Zero W] [Inhabited D] [BEq D] [LT D] [DecidableLT D]
variable {e e' : GraphEngine W D} {fuel : Nat}

/-- The node that a request gives to `add_node`. -/
def Request.added : Request W D → Option Int
  | .call op => op.adds.map Prod.fst
  | _ => none

omit [Zero W] [Inhabited D] [BEq D] [LT D] [DecidableLT D] in
theorem cap_bfsPath {g : DynamicGraph W} {source target : Int} {rel : Bytes} {arena arena' : Arena}
    {path : PathResult} (found : bfsPath fuel g source target rel arena =
      Outcome.returned (arena', path)) : arena'.cap = arena.cap := by
  unfold bfsPath at found
  split at found
  · cases found
    rfl
  · obtain ⟨n, -, rest⟩ := Outcome.bind_eq_returned.mp found
    obtain ⟨a, -, rest⟩ := Outcome.bind_eq_returned.mp rest
    obtain ⟨path', -, last⟩ := Outcome.bind_eq_returned.mp rest
    cases last
    exact cap_alloc arena n

/-- One request: the arena keeps its size, and the largest id grows with what is added only. -/
theorem serve_spec {r : Request W D} (step : serve fuel e r = some e') :
    e'.queryArena.cap = e.queryArena.cap ∧
      ∀ bound, e'.graph.maxNodeId ≤ bound ↔
        e.graph.maxNodeId ≤ bound ∧ ∀ id, r.added = some id → id ≤ bound := by
  have same (cap : e'.queryArena.cap = e.queryArena.cap)
      (largest : e'.graph.maxNodeId = e.graph.maxNodeId) (none : r.added = none) :
      e'.queryArena.cap = e.queryArena.cap ∧
        ∀ bound, e'.graph.maxNodeId ≤ bound ↔
          e.graph.maxNodeId ≤ bound ∧ ∀ id, r.added = some id → id ≤ bound := by
    refine ⟨cap, fun bound => ?_⟩
    rw [largest, none]
    simp
  cases r with
  | call op =>
    rcases attempt_cases step with ⟨id, label, props, rfl, rfl⟩ | ⟨label, rfl, rfl⟩ |
      ⟨none, -, cap, largest, -⟩
    · refine ⟨rfl, fun bound => ?_⟩
      simp only [Request.added, Op.adds, Option.map_some, Option.some.injEq, forall_eq',
        GraphEngine.addNode, DynamicGraph.addNode]
      split <;> omega
    · exact same rfl rfl rfl
    · exact same cap largest (by rw [Request.added, none, Option.map_none])
  | csr order =>
    simp only [serve] at step
    split at step
    · cases step
    · cases step
      exact same rfl rfl rfl
    · rename_i compacted
      cases step
      unfold csr at compacted
      split at compacted
      · obtain ⟨e₁, made, last⟩ := Outcome.bind_eq_returned.mp compacted
        cases last
        obtain ⟨c, -, last⟩ := Outcome.bind_eq_returned.mp made
        cases last
        exact same rfl rfl rfl
      · cases compacted
        exact same rfl rfl rfl
  | path source target rel =>
    simp only [serve] at step
    rcases Outcome.cases (bfsPath fuel e.graph source target rel e.queryArena.reset) with
      stuck | ⟨ex, threw⟩ | ⟨⟨arena, path⟩, found⟩
    · rw [stuck] at step
      cases step
    · rw [threw] at step
      cases step
    · have cap : arena.cap = e.queryArena.reset.cap := cap_bfsPath found
      rw [found] at step
      cases step
      exact same cap rfl rfl

/-- A run of requests. -/
theorem served_spec (requests : List (Request W D)) (ran : served fuel requests e = some e') :
    e'.queryArena.cap = e.queryArena.cap ∧
      ∀ bound, e'.graph.maxNodeId ≤ bound ↔
        e.graph.maxNodeId ≤ bound ∧ ∀ r ∈ requests, ∀ id, r.added = some id → id ≤ bound := by
  induction requests generalizing e with
  | nil =>
    cases ran
    simp
  | cons r requests ih =>
    obtain ⟨e₁, step, rest⟩ := Option.bind_eq_some_iff.mp ran
    obtain ⟨cap₁, largest₁⟩ := serve_spec step
    obtain ⟨cap, largest⟩ := ih rest
    refine ⟨cap.trans cap₁, fun bound => ?_⟩
    rw [largest, largest₁, List.forall_mem_cons, and_assoc]

/-- Every block of a path query is found, in the state after any run of requests, if and only if
no id above 246722 has been given to `add_node`. -/
theorem pathBlocks_found_iff (requests : List (Request W D))
    (ran : served fuel requests empty = some e) {source target : Int} (apart : source ≠ target) :
    (∃ blocks, pathBlocks e source target = some blocks ∧ ∀ block ∈ blocks, block ≠ none) ↔
      ∀ r ∈ requests, ∀ id, r.added = some id → id ≤ 246722 := by
  obtain ⟨cap, largest⟩ := served_spec requests ran
  have start : (empty : GraphEngine W D).graph.maxNodeId = -1 := rfl
  have least : -1 ≤ e.graph.maxNodeId := by
    by_contra below
    have bound := (largest (-2)).mp (by omega)
    rw [start] at bound
    omega
  have bounded : e.graph.maxNodeId ≤ 246722 ↔
      ∀ r ∈ requests, ∀ id, r.added = some id → id ≤ 246722 := by
    rw [largest, start]
    simp
  rw [← bounded, pathBlocks, if_neg apart]
  by_cases small : e.graph.maxNodeId < 2 ^ 31 - 1
  · obtain ⟨n, size⟩ := Int.eq_ofNat_of_zero_le (show 0 ≤ e.graph.maxNodeId + 1 by omega)
    have sum : intAdd e.graph.maxNodeId 1 = some (n : Int) :=
      intAdd_eq_some.mpr ⟨size.symm, by omega, by omega⟩
    have found := blocks_found_iff e.queryArena.reset (n := n) (by omega)
    rw [roomy_fresh cap] at found
    rw [sum]
    simp only [bind, Option.bind_some, Option.some.injEq, exists_eq_left', found]
    omega
  · have overflow : intAdd e.graph.maxNodeId 1 = none := by
      rw [Option.eq_none_iff_forall_ne_some]
      intro n sum
      have := intAdd_eq_some.mp sum
      omega
    rw [overflow]
    exact iff_of_false (by simp [bind]) (by omega)

end

/-- The blocks are found after a node with the id 5. -/
theorem pathBlocks_found_iff_node :
    ∃ e : GraphEngine Int Int,
      served 0 [.call (.addNode 5 (str "a") []), .path 5 5 []] empty = some e ∧
      ((∃ blocks, pathBlocks e 5 6 = some blocks ∧ ∀ block ∈ blocks, block ≠ none) ↔
        ∀ r ∈ ([.call (.addNode 5 (str "a") []), .path 5 5 []] : List (Request Int Int)),
          ∀ id, r.added = some id → id ≤ 246722) :=
  ⟨_, rfl, pathBlocks_found_iff _
    (rfl : served 0 [.call (.addNode 5 (str "a") []), .path 5 5 []] empty = some _) (by decide)⟩

/-- A node with the id 246723 leaves no room for the queue of the search. -/
theorem pathBlocks_exhausted :
    ∃ e : GraphEngine Int Int,
      served 0 [.call (.addNode 246723 (str "a") [])] empty = some e ∧
      pathBlocks e 246723 0 = some [some 0, some 986896, some 2960688, none] ∧
      ¬ ∃ blocks, pathBlocks e 246723 0 = some blocks ∧ ∀ block ∈ blocks, block ≠ none := by
  have taken : pathBlocks ((empty : GraphEngine Int Int).addNode 246723 (str "a") []) 246723 0 =
      some [some 0, some 986896, some 2960688, none] := by decide
  refine ⟨_, rfl, taken, ?_⟩
  intro ⟨blocks, same, found⟩
  obtain rfl := Option.some.inj (taken.symm.trans same)
  exact found none (by simp) rfl

end GraphEngine

end FastGraph
