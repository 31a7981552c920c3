import FastGraph.Index.Proofs.Chains
import FastGraph.Index.SlabList
import FastGraph.Misc.Rekeyed

/-!
# Skip lists at other addresses

A skip list whose nodes have other addresses does the same, as long as different nodes that are in
use have different addresses: every function of the source reads pointers of nodes in use, which
lead to nodes in use, and compares no others.
-/

namespace FastGraph

/-- A node with its pointers renamed. -/
def SkipNode.rename {S : Type} (ρ : Nat → Nat) (node : SkipNode S) : SkipNode S :=
  { node with forward := node.forward.map (Option.map ρ) }

namespace SkipList
open Tower

section
variable {S : Type} {ρ : Nat → Nat} {heap heap' heap₁ : UnorderedMap Nat (SkipNode S)}
  {before : SkipNode S → Bool} {update update' : Nat → Option Nat} {p i n cur target : Nat}
  {q : Option Nat}

/-- The nodes of `heap'` are those of `heap` at other addresses. -/
abbrev Carried (ρ : Nat → Nat) (heap heap' : UnorderedMap Nat (SkipNode S)) : Prop :=
  Rekeyed ρ (SkipNode.rename ρ) heap heap'

/-- The pointers of the nodes lead to nodes. -/
def Closed (heap : UnorderedMap Nat (SkipNode S)) : Prop :=
  ∀ p node q, heap.find p = some node → some q ∈ node.forward → (heap.find q).isSome

/-- The levels that the node at an address was made with. -/
def levelAt (heap : UnorderedMap Nat (SkipNode S)) (a : Nat) : Option Nat :=
  (heap.find a).map SkipNode.level

/-! ### Pointers -/

theorem forward_found (read : forward heap p i = some q) :
    ∃ node, heap.find p = some node ∧ node.forward[i]? = some q :=
  Option.bind_eq_some_iff.mp read

theorem Carried.forward (carried : Carried ρ heap heap') (read : forward heap p i = some q) :
    SkipList.forward heap' (ρ p) i = some (q.map ρ) := by
  obtain ⟨node, found, points⟩ := forward_found read
  simp [SkipList.forward, carried.find p node found, SkipNode.rename, points]

theorem Closed.forward (closed : Closed heap) (read : forward heap p i = some q) :
    ∀ a ∈ q, (heap.find a).isSome := by
  rintro a rfl
  obtain ⟨node, found, points⟩ := forward_found read
  exact closed p node a found (List.mem_of_getElem? points)

theorem setForward_cases (ran : setForward heap p i q = some heap₁) :
    ∃ node, heap.find p = some node ∧ i < node.forward.length ∧
      heap₁ = heap.set p { node with forward := node.forward.set i q } := by
  obtain ⟨node, found, ran⟩ := Option.bind_eq_some_iff.mp ran
  split at ran
  · rename_i inside
    exact ⟨node, found, inside, (Option.some.inj ran).symm⟩
  · cases ran

theorem Carried.setForward (carried : Carried ρ heap heap')
    (ran : setForward heap p i q = some heap₁) :
    ∃ heap₁', SkipList.setForward heap' (ρ p) i (q.map ρ) = some heap₁' ∧
      Carried ρ heap₁ heap₁' := by
  obtain ⟨node, found, inside, rfl⟩ := setForward_cases ran
  refine ⟨heap'.set (ρ p) (SkipNode.rename ρ { node with forward := node.forward.set i q }), ?_,
    carried.set (by rw [found]; rfl) _⟩
  simp [SkipList.setForward, carried.find p node found, SkipNode.rename, inside, List.map_set]

theorem used_setForward (ran : setForward heap p i q = some heap₁) (a : Nat) :
    (heap₁.find a).isSome = (heap.find a).isSome := by
  obtain ⟨node, found, -, rfl⟩ := setForward_cases ran
  rw [UnorderedMap.find_set]
  split
  · rename_i here
    rw [here, found]
    rfl
  · rfl

theorem Closed.setForward (closed : Closed heap) (ran : setForward heap p i q = some heap₁)
    (leads : ∀ a ∈ q, (heap.find a).isSome) : Closed heap₁ := by
  intro a node b found points
  rw [used_setForward ran]
  obtain ⟨node₀, found₀, -, rfl⟩ := setForward_cases ran
  rw [UnorderedMap.find_set] at found
  split at found
  · obtain rfl := Option.some.inj found
    rcases List.mem_or_eq_of_mem_set points with old | new
    · exact closed p node₀ b found₀ old
    · exact leads b new.symm
  · exact closed a node b found points

theorem levelAt_setForward (ran : setForward heap p i q = some heap₁) (a : Nat) :
    levelAt heap₁ a = levelAt heap a := by
  obtain ⟨node, found, -, rfl⟩ := setForward_cases ran
  unfold levelAt
  rw [UnorderedMap.find_set]
  split
  · rename_i here
    rw [here, found]
    rfl
  · rfl

/-! ### Searches -/

theorem Carried.walk (carried : Carried ρ heap heap')
    (same : ∀ node, before (node.rename ρ) = before node) {fuel cur' : Nat}
    (ran : walk heap before i fuel cur = some cur') :
    SkipList.walk heap' before i fuel (ρ cur) = some (ρ cur') := by
  induction fuel generalizing cur with
  | zero => cases ran
  | succ fuel ih =>
    unfold SkipList.walk at ran ⊢
    obtain ⟨next, read, ran⟩ := Option.bind_eq_some_iff.mp ran
    rw [carried.forward read]
    cases next with
    | none =>
      cases ran
      rfl
    | some next =>
      obtain ⟨node, found, ran⟩ := Option.bind_eq_some_iff.mp ran
      simp only [Option.map_some, Option.bind_eq_bind, Option.bind_some,
        carried.find next node found, same]
      split at ran
      · rename_i goes
        rw [if_pos goes]
        exact ih ran
      · rename_i stops
        cases ran
        rw [if_neg stops]

theorem Carried.searchLoop (carried : Carried ρ heap heap')
    (same : ∀ node, before (node.rename ρ) = before node) {cur' : Nat}
    (ran : searchLoop heap before i cur update = some (cur', update')) :
    SkipList.searchLoop heap' before i (ρ cur) (fun j => (update j).map ρ) =
      some (ρ cur', fun j => (update' j).map ρ) := by
  induction i generalizing cur update with
  | zero =>
    cases ran
    rfl
  | succ i ih =>
    unfold SkipList.searchLoop at ran ⊢
    obtain ⟨cur₁, walked, ran⟩ := Option.bind_eq_some_iff.mp ran
    have walked' := carried.walk same walked
    rw [← carried.size] at walked'
    have written : (fun j => if j = i then some (ρ cur₁) else (update j).map ρ) =
        fun j => (if j = i then some cur₁ else update j).map ρ := by
      funext j
      split <;> rfl
    simp only [walked', Option.bind_eq_bind, Option.bind_some, written]
    exact ih ran

/-! ### The lists -/

variable {l c l' : SkipList S}

/-- The list `c` is `l` with its nodes at other addresses. -/
structure Moved (ρ : Nat → Nat) (l c : SkipList S) : Prop where
  nodes : Carried ρ l.heap c.heap
  head : c.head = ρ l.head
  level : c.level = l.level
  size : c.size = l.size
  scores : c.memberScores = l.memberScores
  uniform : Uniform c.heap

theorem Moved.search (moved : Moved ρ l c) (same : ∀ node, before (node.rename ρ) = before node)
    (ran : l.search before update = some (cur, update')) :
    c.search before (fun j => (update j).map ρ) = some (ρ cur, fun j => (update' j).map ρ) := by
  unfold SkipList.search at ran ⊢
  rw [moved.level, moved.head]
  exact moved.nodes.searchLoop same ran

theorem Carried.shrinkLevel (carried : Carried ρ heap heap') {head level level' : Nat}
    (ran : shrinkLevel heap head level = some level') :
    SkipList.shrinkLevel heap' (ρ head) level = some level' := by
  induction level with
  | zero => exact ran
  | succ level ih =>
    cases level with
    | zero => exact ran
    | succ level =>
      unfold SkipList.shrinkLevel at ran ⊢
      obtain ⟨next, read, ran⟩ := Option.bind_eq_some_iff.mp ran
      rw [carried.forward read]
      cases next with
      | none => exact ih ran
      | some a => exact ran

/-- The unlinking loop compares pointers to nodes in use only. -/
theorem Carried.unlinkLoop (carried : Carried ρ heap heap') (closed : Closed heap)
    (used : (heap.find target).isSome) {todo : Nat}
    (ran : unlinkLoop target update todo i heap = some heap₁) :
    ∃ heap₁', SkipList.unlinkLoop (ρ target) (fun j => (update j).map ρ) todo i heap' = some heap₁' ∧
      Carried ρ heap₁ heap₁' ∧ (∀ a, levelAt heap₁' a = levelAt heap' a) ∧
      (heap₁.find target).isSome := by
  induction todo generalizing heap heap' i with
  | zero =>
    cases ran
    exact ⟨heap', rfl, carried, fun _ => rfl, used⟩
  | succ todo ih =>
    unfold SkipList.unlinkLoop at ran
    obtain ⟨u, written, ran⟩ := Option.bind_eq_some_iff.mp ran
    obtain ⟨next, read, ran⟩ := Option.bind_eq_some_iff.mp ran
    have read' := carried.forward read
    by_cases leads : next = some target
    · subst leads
      rw [if_neg (by simp)] at ran
      obtain ⟨q, after, ran⟩ := Option.bind_eq_some_iff.mp ran
      obtain ⟨heap₂, set, ran⟩ := Option.bind_eq_some_iff.mp ran
      obtain ⟨heap₂', set', carried₂⟩ := carried.setForward set
      obtain ⟨heap₁', ran', carried₁, levels, used₁⟩ := ih carried₂
        (closed.setForward set (closed.forward after)) (by rw [used_setForward set]; exact used) ran
      refine ⟨heap₁', ?_, carried₁, fun a => (levels a).trans (levelAt_setForward set' a), used₁⟩
      simp [SkipList.unlinkLoop, written, read', carried.forward after, set', ran']
    · rw [if_pos leads] at ran
      cases ran
      have apart : next.map ρ ≠ some (ρ target) := by
        intro same
        obtain ⟨a, rfl, clash⟩ := Option.map_eq_some_iff.mp same
        exact leads (congrArg some
          (carried.inj a target (closed.forward read a rfl) used clash))
      exact ⟨heap', by simp [SkipList.unlinkLoop, written, read', apart], carried, fun _ => rfl, used⟩

/-- The linking loop writes through the entries of `update` below `lvl`. -/
theorem Carried.linkLoop (carried : Carried ρ heap heap') {lvl : Nat}
    (same : ∀ j < lvl, ∀ u ∈ update j, update' j = some (ρ u))
    (ran : (List.range lvl).foldlM (linkAt n update) heap = some heap₁) :
    ∃ heap₁', (List.range lvl).foldlM (linkAt (ρ n) update') heap' = some heap₁' ∧
      Carried ρ heap₁ heap₁' ∧ ∀ a, levelAt heap₁' a = levelAt heap' a := by
  induction lvl generalizing heap₁ with
  | zero =>
    cases ran
    exact ⟨heap', rfl, carried, fun _ => rfl⟩
  | succ k ih =>
    rw [List.range_succ, List.foldlM_append] at ran
    obtain ⟨heap₂, first, ran⟩ := Option.bind_eq_some_iff.mp ran
    obtain ⟨heap₂', first', carried₂, levels₂⟩ :=
      ih (fun j less u mem => same j (Nat.lt_succ_of_lt less) u mem) first
    rw [List.foldlM_cons] at ran
    obtain ⟨heap₃, linked, ran⟩ := Option.bind_eq_some_iff.mp ran
    cases ran
    obtain ⟨u, written, linked⟩ := Option.bind_eq_some_iff.mp linked
    obtain ⟨q, read, linked⟩ := Option.bind_eq_some_iff.mp linked
    obtain ⟨heap₄, own, linked⟩ := Option.bind_eq_some_iff.mp linked
    obtain ⟨heap₄', own', carried₄⟩ := carried₂.setForward own
    obtain ⟨heap₁', linked', carried₁⟩ := carried₄.setForward linked
    refine ⟨heap₁', ?_, carried₁, ?_⟩
    · rw [List.range_succ, List.foldlM_append, first']
      simp only [Option.map_some] at linked'
      simp [linkAt, same k (Nat.lt_succ_self k) u written, carried₂.forward read, own', linked']
    · intro a
      rw [levelAt_setForward linked', levelAt_setForward own', levels₂]

/-! ### Ranges -/

section
variable [LE S] [DecidableLE S] {r : List (S × Bytes)} {next : Option Nat} {fuel : Nat}

theorem Carried.collectUpTo (carried : Carried ρ heap heap') {maxScore : S}
    (ran : collectUpTo heap maxScore fuel next = some r) :
    SkipList.collectUpTo heap' maxScore fuel (next.map ρ) = some r := by
  induction fuel generalizing next r with
  | zero =>
    cases next with
    | none => exact ran
    | some cur => cases ran
  | succ fuel ih =>
    cases next with
    | none => exact ran
    | some cur =>
      obtain ⟨node, found, ran⟩ := Option.bind_eq_some_iff.mp ran
      simp only [SkipList.collectUpTo, Option.map_some, carried.find cur node found,
        Option.bind_eq_bind, Option.bind_some, SkipNode.rename, List.getElem?_map]
      split at ran
      · rename_i small
        obtain ⟨after, read, ran⟩ := Option.bind_eq_some_iff.mp ran
        obtain ⟨more, collected, ran⟩ := Option.bind_eq_some_iff.mp ran
        rw [if_pos small, read]
        simp only [Option.map_some, Option.bind_some, ih collected]
        exact ran
      · rename_i large
        rw [if_neg large]
        exact ran

theorem Moved.rangeByScore [LT S] [DecidableLT S] (moved : Moved ρ l c) {minScore maxScore : S}
    (ran : l.rangeByScore minScore maxScore = some r) :
    c.rangeByScore minScore maxScore = some r := by
  unfold SkipList.rangeByScore at ran ⊢
  obtain ⟨⟨cur, update⟩, searched, ran⟩ := Option.bind_eq_some_iff.mp ran
  obtain ⟨next, read, ran⟩ := Option.bind_eq_some_iff.mp ran
  have searched' := moved.search (fun _ => rfl) searched
  simp only [Option.map_none] at searched'
  simp only [searched', moved.nodes.forward read, Option.bind_eq_bind, Option.bind_some,
    moved.nodes.size]
  exact moved.nodes.collectUpTo ran

omit [LE S] [DecidableLE S] in
theorem Carried.collectRanks (carried : Carried ρ heap heap') {start stop idx : Int}
    (ran : collectRanks heap start stop fuel idx next = some r) :
    SkipList.collectRanks heap' start stop fuel idx (next.map ρ) = some r := by
  induction fuel generalizing next r idx with
  | zero =>
    cases next with
    | none => exact ran
    | some cur => cases ran
  | succ fuel ih =>
    cases next with
    | none => exact ran
    | some cur =>
      unfold SkipList.collectRanks at ran
      simp only [SkipList.collectRanks, Option.map_some]
      split at ran
      · rename_i inside
        obtain ⟨node, found, ran⟩ := Option.bind_eq_some_iff.mp ran
        obtain ⟨after, read, ran⟩ := Option.bind_eq_some_iff.mp ran
        obtain ⟨more, collected, ran⟩ := Option.bind_eq_some_iff.mp ran
        rw [if_pos inside]
        simp only [carried.find cur node found, Option.bind_eq_bind, Option.bind_some,
          SkipNode.rename, List.getElem?_map, read, Option.map_some, ih collected]
        exact ran
      · rename_i outside
        rw [if_neg outside]
        exact ran

omit [LE S] [DecidableLE S] in
theorem Moved.rangeByRank (moved : Moved ρ l c) {start stop : Int}
    (ran : l.rangeByRank start stop = some r) : c.rangeByRank start stop = some r := by
  unfold SkipList.rangeByRank at ran ⊢
  obtain ⟨next, read, ran⟩ := Option.bind_eq_some_iff.mp ran
  rw [moved.head]
  simp only [moved.nodes.forward read, Option.bind_eq_bind, Option.bind_some, moved.nodes.size]
  exact moved.nodes.collectRanks ran

end

end

end SkipList

end FastGraph
