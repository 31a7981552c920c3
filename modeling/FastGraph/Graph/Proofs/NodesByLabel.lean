import FastGraph.Graph.Proofs.GraphEngine

/-!
# Nodes by label

A node carries the pointer its label was interned at. Interning the same label again returns
that pointer whatever has been interned in between, so that pointers stand for labels. The
exception is the null pointer, which all labels share for which the pool has no room.
-/

namespace FastGraph.GraphEngine
open StringPool

section
variable {W D : Type} {e e' : GraphEngine W D} {ops : List (Op W D)} {id : Int} {label : Bytes}

/-- The label that `add_node` has given to the node most recently. -/
def lastLabel (ops : List (Op W D)) (id : Int) : Option Bytes :=
  ((ops.reverse.filterMap Op.adds).find? fun n => n.1 = id).map Prod.snd

theorem lastLabel_append (ops : List (Op W D)) (op : Op W D) (id : Int) :
    lastLabel (ops ++ [op]) id =
      match op.adds with
      | some (id', label) => if id' = id then some label else lastLabel ops id
      | none => lastLabel ops id := by
  unfold lastLabel
  rw [List.reverse_append, List.reverse_singleton, List.singleton_append, List.filterMap_cons]
  cases op.adds with
  | none => rfl
  | some n =>
    by_cases same : n.1 = id <;> simp [same]

theorem mem_of_lastLabel (last : lastLabel ops id = some label) :
    ∃ op ∈ ops, op.adds = some (id, label) := by
  unfold lastLabel at last
  obtain ⟨n, found, rfl⟩ := Option.map_eq_some_iff.mp last
  obtain ⟨op, mem, adds⟩ := List.mem_filterMap.mp (List.mem_of_find?_eq_some found)
  have same : n.1 = id := by simpa using List.find?_some found
  exact ⟨op, List.mem_reverse.mp mem, by rw [adds, ← same]⟩

/-- Every node points at its last label, or at nothing if there is no room for that. -/
structure Told (ops : List (Op W D)) (e : GraphEngine W D) : Prop where
  pool : e.labelPool.Valid
  label : ∀ id info, e.graph.nodes.find id = some info →
    ∃ l, lastLabel ops id = some l ∧ Settled e.labelPool l info.labelPtr

theorem told_empty : Told ([] : List (Op W D)) empty where
  pool := valid_empty
  label _ _ stored := by cases stored

/-- Interning a label leaves every node with its own. -/
theorem Told.intern (told : Told ops e) (label : Bytes) :
    ∀ id info, e.graph.nodes.find id = some info →
      ∃ l, lastLabel ops id = some l ∧ Settled (e.labelPool.intern label).1 l info.labelPtr := by
  intro id info stored
  obtain ⟨l, last, settled⟩ := told.label id info stored
  exact ⟨l, last, settled.intern label⟩

section
variable [Inhabited D] [BEq D] [LT D] [DecidableLT D]

/-- One call. -/
theorem Told.attempt (told : Told ops e) {op : Op W D} (step : e.attempt op = some e') :
    Told (ops ++ [op]) e' := by
  rcases attempt_cases step with ⟨id, label, props, rfl, rfl⟩ | ⟨label, rfl, rfl⟩ |
    ⟨none, pool, -, -, nodes⟩
  · refine ⟨(told.pool.intern label).valid, ?_⟩
    intro id' info stored
    rw [lastLabel_append]
    simp only [GraphEngine.addNode, DynamicGraph.addNode, UnorderedMap.find_set] at stored
    simp only [Op.adds]
    by_cases same : id' = id
    · rw [if_pos same] at stored
      cases stored
      exact ⟨label, if_pos same.symm, settled_intern _ _⟩
    · rw [if_neg same] at stored
      rw [if_neg (Ne.symm same)]
      exact told.intern label id' info stored
  · refine ⟨(told.pool.intern label).valid, ?_⟩
    intro id info stored
    rw [lastLabel_append]
    exact told.intern label id info stored
  · refine ⟨by rw [pool]; exact told.pool, ?_⟩
    intro id info stored
    rw [lastLabel_append, none, pool]
    apply told.label
    rcases nodes with same | ⟨id', -, erased⟩
    · rwa [← same]
    · rw [erased, UnorderedMap.find_erase] at stored
      split at stored
      · cases stored
      · exact stored

/-- A run of calls, of which some may throw. -/
theorem told_attempts (ops : List (Op W D)) (ran : attempts ops empty = some e) : Told ops e := by
  induction ops using List.reverseRecOn generalizing e with
  | nil =>
    cases ran
    exact told_empty
  | append_singleton ops op ih =>
    rw [attempts_append] at ran
    obtain ⟨e₁, before, last⟩ := Option.bind_eq_some_iff.mp ran
    obtain ⟨e₂, step, done⟩ := Option.bind_eq_some_iff.mp last
    cases done
    exact (ih before).attempt step

end

theorem nodesByLabel_snd (e : GraphEngine W D) (order : IterOrder) (label : Bytes) :
    (e.nodesByLabel order label).2 =
      (order.permute e.graph.nodes.toList).filterMap fun n =>
        if n.2.labelPtr = (e.labelPool.intern label).2 then some n.1 else none := rfl

/-- What `nodes_by_label` compares. -/
theorem mem_nodesByLabel {order : IterOrder} : id ∈ (e.nodesByLabel order label).2 ↔
    ∃ info, e.graph.nodes.find id = some info ∧ info.labelPtr = (e.labelPool.intern label).2 := by
  have listed : ∀ n : Int × NodeMeta, n ∈ order.permute e.graph.nodes.toList ↔
      e.graph.nodes.find n.1 = some n.2 := by
    intro n
    rw [(order.perm _).mem_iff, UnorderedMap.mem_toList]
  rw [nodesByLabel_snd]
  generalize (e.labelPool.intern label).2 = target
  simp only [List.mem_filterMap, listed]
  constructor
  · rintro ⟨n, stored, given⟩
    split at given
    · rename_i same
      cases given
      exact ⟨n.2, stored, same⟩
    · cases given
  · rintro ⟨info, stored, same⟩
    exact ⟨(id, info), stored, if_pos same⟩

/-- `nodes_by_label` lists no node twice. -/
theorem nodup_nodesByLabel (e : GraphEngine W D) (order : IterOrder) (label : Bytes) :
    (e.nodesByLabel order label).2.Nodup := by
  have keys : ((order.permute e.graph.nodes.toList).map Prod.fst).Nodup :=
    ((order.perm _).map Prod.fst).nodup_iff.mpr (UnorderedMap.nodup_keys _)
  rw [nodesByLabel_snd]
  generalize (e.labelPool.intern label).2 = target
  refine (List.pairwise_map.mp keys).filterMap _ ?_
  intro n n' differ id given id' given'
  split at given
  · split at given'
    · cases given
      cases given'
      exact differ
    · cases given'
  · cases given

variable [Inhabited D] [BEq D] [LT D] [DecidableLT D]

/-- After every run `nodes_by_label` lists the nodes whose last label it is asked for, and no
others, unless there is no room for that label nor for the last label of some other node. -/
theorem nodesByLabel_iff (ops : List (Op W D)) (ran : attempts ops empty = some e)
    (order : IterOrder) (label : Bytes) :
    ((e.nodesByLabel order label).2.Nodup ∧ ∀ id, id ∈ (e.nodesByLabel order label).2 ↔
      e.graph.hasNode id = true ∧ lastLabel ops id = some label) ↔
    ¬ (NoRoom e.labelPool label ∧ ∃ id other, e.graph.hasNode id = true ∧
      lastLabel ops id = some other ∧ other ≠ label ∧ NoRoom e.labelPool other) := by
  have told := told_attempts ops ran
  rw [and_iff_right (nodup_nodesByLabel e order label)]
  -- A node by its last label.
  have node {id : Int} (has : e.graph.hasNode id = true) : ∃ info l,
      e.graph.nodes.find id = some info ∧ lastLabel ops id = some l ∧
        Settled e.labelPool l info.labelPtr := by
    obtain ⟨info, stored⟩ := Option.isSome_iff_exists.mp has
    obtain ⟨l, last, settled⟩ := told.label id info stored
    exact ⟨info, l, stored, last, settled⟩
  have null {l : Bytes} {ptr : CharPtr} (settled : Settled e.labelPool l ptr) :
      ptr = none ↔ NoRoom e.labelPool l := by
    rw [← intern_eq_none_iff, settled]
  constructor
  · rintro exactly ⟨noRoom, id, other, has, last, differ, noRoom'⟩
    obtain ⟨info, l, stored, last', settled⟩ := node has
    obtain rfl := Option.some.inj (last.symm.trans last')
    have listed : id ∈ (e.nodesByLabel order label).2 := by
      rw [mem_nodesByLabel]
      exact ⟨info, stored, ((null settled).mpr noRoom').trans (intern_eq_none_iff.mpr noRoom).symm⟩
    have same := ((exactly id).mp listed).2
    rw [last] at same
    exact differ (Option.some.inj same)
  · intro apart id
    rw [mem_nodesByLabel]
    constructor
    · intro ⟨info, stored, pointer⟩
      have has : e.graph.hasNode id = true := Option.isSome_iff_exists.mpr ⟨info, stored⟩
      obtain ⟨l, last, settled⟩ := told.label id info stored
      refine ⟨has, ?_⟩
      by_contra differ
      have other : l ≠ label := by
        rintro rfl
        exact differ last
      cases found : info.labelPtr with
      | none =>
        rw [found] at pointer settled
        exact apart ⟨intern_eq_none_iff.mp pointer.symm, id, l, has, last, other,
          (null settled).mp rfl⟩
      | some ptr =>
        rw [found] at pointer settled
        have asked := settled_intern e.labelPool label
        rw [← pointer] at asked
        exact other ((settled.intern label).inj (told.pool.intern label).valid asked)
    · intro ⟨has, last⟩
      obtain ⟨info, l, stored, last', settled⟩ := node has
      obtain rfl := Option.some.inj (last.symm.trans last')
      exact ⟨info, stored, (congrArg Prod.snd settled).symm⟩

/-- Two nodes whose labels are as long as the arena have the same pointer. -/
theorem mem_nodesByLabel_of_long {a b : Bytes} (long : 4 * 1024 * 1024 ≤ a.length)
    (long' : 4 * 1024 * 1024 ≤ b.length) (order : IterOrder) :
    2 ∈ ((((empty : GraphEngine W D).addNode 1 a []).addNode 2 b []).nodesByLabel order a).2 := by
  have valid := (told_attempts (D := D) (W := W) [.addNode 1 a [], .addNode 2 b []] rfl).pool
  have earlier := (told_attempts (D := D) (W := W) [.addNode 1 a []] rfl).pool
  rw [mem_nodesByLabel]
  refine ⟨⟨none, []⟩, ?_, (intern_eq_none_iff.mpr (valid.noRoom_of_long long)).symm⟩
  have null : (((empty : GraphEngine W D).addNode 1 a []).labelPool.intern b).2 = none :=
    intern_eq_none_iff.mpr (earlier.noRoom_of_long long')
  simp only [GraphEngine.addNode, DynamicGraph.addNode, UnorderedMap.find_set] at null ⊢
  rw [if_pos trivial, null]

end

/-- The nodes of a label that was given to one node after another label. -/
theorem nodesByLabel_iff_relabelled :
    ∃ e : GraphEngine Int Int,
      attempts [.addNode 1 (str "a") [], .addNode 2 (str "b") [], .addNode 1 (str "b") []] empty =
        some e ∧
      (((e.nodesByLabel .asListed (str "b")).2.Nodup ∧
          ∀ id, id ∈ (e.nodesByLabel .asListed (str "b")).2 ↔ e.graph.hasNode id = true ∧
            lastLabel [(.addNode 1 (str "a") [] : Op Int Int), .addNode 2 (str "b") [],
              .addNode 1 (str "b") []] id = some (str "b")) ↔
        ¬ (NoRoom e.labelPool (str "b") ∧ ∃ id other, e.graph.hasNode id = true ∧
          lastLabel [(.addNode 1 (str "a") [] : Op Int Int), .addNode 2 (str "b") [],
            .addNode 1 (str "b") []] id = some other ∧ other ≠ str "b" ∧
          NoRoom e.labelPool other)) :=
  ⟨_, rfl, nodesByLabel_iff [.addNode 1 (str "a") [], .addNode 2 (str "b") [],
    .addNode 1 (str "b") []] rfl .asListed (str "b")⟩

/-- Labels of four million bytes find no room, and the node of the one is listed under the
other. -/
theorem nodesByLabel_exhausted :
    ∃ e : GraphEngine Int Int,
      attempts [.addNode 1 (List.replicate 4194304 97) [],
        .addNode 2 (List.replicate 4194305 97) []] empty = some e ∧
      ¬ ((e.nodesByLabel .asListed (List.replicate 4194304 97)).2.Nodup ∧
        ∀ id, id ∈ (e.nodesByLabel .asListed (List.replicate 4194304 97)).2 ↔
          e.graph.hasNode id = true ∧
          lastLabel [(.addNode 1 (List.replicate 4194304 97) [] : Op Int Int),
            .addNode 2 (List.replicate 4194305 97) []] id =
              some (List.replicate 4194304 97)) := by
  refine ⟨_, rfl, ?_⟩
  intro ⟨_, exactly⟩
  have listed := mem_nodesByLabel_of_long (W := Int) (D := Int) (a := List.replicate 4194304 97)
    (b := List.replicate 4194305 97) (by rw [List.length_replicate])
    (by rw [List.length_replicate]; decide) .asListed
  have last := ((exactly 2).mp listed).2
  have length := congrArg List.length (Option.some.inj last)
  rw [List.length_replicate, List.length_replicate] at length
  cases length

end FastGraph.GraphEngine
