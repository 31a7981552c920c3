import FastGraph.Dispatch.Proofs.Calls
import FastGraph.Graph.Proofs.LabelText
import FastGraph.Protocol.Proofs.ArrayRoundTrip

/-!
# What readers make of a label

A label comes as a string of any bytes and is interned whole, but `GRAPH.NODE`, `all_nodes`
and `build_csr` read it back as a C string. They yield the label exactly if it has no NUL byte;
`nodes_by_label`, which compares pointers, always finds it.
-/

namespace FastGraph.Dispatcher
open Program RespEncoder RespParser StringPool CSRGraph GraphEngine

section
variable {W D : Type} [Zero W] [One W] [Add W] [LT W] [DecidableLT W]
variable [Inhabited D] [BEq D] [LT D] [DecidableLT D] [LE D] [DecidableLE D]
variable (lib : FloatLib W D) (env : Env) {d : Dispatcher W D} {id : Int} {label : Bytes}

/-- `GRAPH.NODE` of a node with a label. -/
theorem dispatch_node {word num : Bytes} {rest : List Bytes} {info : NodeMeta} {ptr : Nat}
    (named : toUpper word = str "GRAPH.NODE") (read : stoi num = .ok id)
    (stored : d.graph.graph.nodes.find id = some info) (pointer : info.labelPtr = some ptr) :
    dispatch lib env d (word :: num :: rest) = Outcome.returned (d, array [str "label",
      d.graph.labelPool.cString ptr, str "props", info.props]) := by
  have mem : (⟨str "GRAPH.NODE", (2 ≤ ·), node⟩ : Branch (Action W D Bytes)) ∈
      branches lib env .graph := by
    simp [branches, graphBranches]
  unfold dispatch
  rw [answer_taken lib env mem (show str "GRAPH.NODE" ∉ Handler.persistent by decide)
    named (by simp)]
  have found : (askGraph fun g => pure (g.graph.nodeMeta id) :
      Action W D (Option NodeMeta)).outcome d = Outcome.returned (d, some info) := by
    rw [askGraph, outcome_ask, DynamicGraph.nodeMeta, stored]
    rfl
  have text : (askGraph fun g => Outcome.ofExcept (g.labelString info.labelPtr) :
      Action W D Bytes).outcome d = Outcome.returned (d, d.graph.labelPool.cString ptr) := by
    rw [askGraph, outcome_ask, pointer]
    rfl
  have body : (node (word :: num :: rest) : Action W D Bytes).outcome d =
      Outcome.returned (d, array [str "label", d.graph.labelPool.cString ptr, str "props",
        info.props]) := by
    change (number .stoi (stoi num) >>= _ : Action W D Bytes).outcome d = _
    rw [outcome_bind (outcome_number read), outcome_bind found]
    dsimp only
    rw [outcome_bind text]
    rfl
  exact outcome_tryCatch body

/-- Every reader yields the label of the node. -/
structure ReadsBack (d : Dispatcher W D) (id : Int) (label : Bytes) : Prop where
  byLabel : ∀ order l, id ∈ (d.graph.nodesByLabel order l).2 ↔ l = label
  node : ∀ word num rest, toUpper word = str "GRAPH.NODE" → stoi num = .ok id →
    ∃ props, dispatch lib env d (word :: num :: rest) =
      Outcome.returned (d, array [str "label", label, str "props", props])
  allNodes : ∀ order ns, d.graph.allNodes order = .ok ns →
    ∀ l, (∃ props, (id, l, props) ∈ ns) ↔ l = label
  csr : ∀ order c, buildCsr d.graph.graph d.graph.labelString order = Outcome.returned c →
    vget c.labels (c.toIdx id) = some label

/-- After every run, the label that a node was given last is read back from the node by every
reader if and only if it has no NUL byte, provided that it was interned. -/
theorem readsBack_iff (ops : List (Op W D)) (ran : attempts ops GraphEngine.empty = some d.graph)
    (isInt : ∀ op ∈ ops, ∀ n, op.adds = some n → IsInt n.1)
    (has : d.graph.graph.hasNode id = true) (last : lastLabel ops id = some label)
    (interned : ¬ NoRoom d.graph.labelPool label) :
    ReadsBack lib env d id label ↔ 0 ∉ label := by
  have told := told_attempts ops ran
  have ints : ∀ id, d.graph.graph.hasNode id = true → IsInt id := by
    intro id has
    obtain ⟨info, stored⟩ := Option.isSome_iff_exists.mp has
    obtain ⟨l, last, -⟩ := told.label id info stored
    obtain ⟨op, mem, adds⟩ := mem_of_lastLabel last
    exact isInt op mem (id, l) adds
  obtain ⟨info, stored⟩ := Option.isSome_iff_exists.mp has
  obtain ⟨l, last', settled⟩ := told.label id info stored
  obtain rfl := Option.some.inj (last.symm.trans last')
  cases pointer : info.labelPtr with
  | none =>
    rw [pointer] at settled
    exact absurd (intern_eq_none_iff.mp (congrArg Prod.snd settled)) interned
  | some ptr =>
    rw [pointer] at settled
    have found := (settled_iff.mp settled).1
    have clean := told.pool.cString_iff found
    constructor
    · intro reads
      obtain ⟨props, answered⟩ := reads.node (str "GRAPH.NODE") (decimalInt id) []
        (by decide) (stoi_decimalInt (ints id has))
      rw [dispatch_node lib env (by decide) (stoi_decimalInt (ints id has)) stored pointer,
        Outcome.returned_inj, Prod.mk.injEq] at answered
      have items := array_injective answered.2
      simp only [List.cons.injEq] at items
      exact clean.mp items.2.1
    · intro noNul
      have text := clean.mpr noNul
      refine ⟨?_, ?_, ?_, ?_⟩
      · intro order l
        rw [mem_nodesByLabel]
        constructor
        · intro ⟨info', stored', same⟩
          obtain rfl := Option.some.inj (stored.symm.trans stored')
          have asked := settled_intern d.graph.labelPool l
          rw [← same, pointer] at asked
          exact asked.inj (told.pool.intern l).valid (settled.intern l)
        · rintro rfl
          exact ⟨info, stored, pointer.trans (congrArg Prod.snd settled).symm⟩
      · intro word num rest named read
        exact ⟨info.props, text ▸ dispatch_node lib env named read stored pointer⟩
      · intro order ns listed l
        simp only [mem_allNodes listed]
        constructor
        · rintro ⟨props, info', stored', rfl, -⟩
          obtain rfl := Option.some.inj (stored.symm.trans stored')
          rw [labelText, pointer]
          exact text
        · rintro rfl
          exact ⟨info.props, info, stored, by rw [labelText, pointer]; exact text, rfl⟩
      · intro order c built
        obtain ⟨s, label', here⟩ := labels_buildCsr (fun id has => (ints id has).1) built stored
        rw [pointer] at label'
        cases label'
        rw [here, text]

end

/-- A node with a label of one letter. -/
theorem readsBack_iff_letter :
    ReadsBack wholeLib calmEnv { fresh with graph := GraphEngine.empty.addNode 1 (str "a") [] } 1
      (str "a") ↔ 0 ∉ str "a" :=
  readsBack_iff wholeLib calmEnv [.addNode 1 (str "a") []] rfl (by simp [Op.adds, IsInt])
    (by decide) (by decide) fun noRoom => absurd noRoom.1 (by decide)

/-- A label with a NUL byte is cut where `GRAPH.NODE` reads it, and `nodes_by_label` finds the
node under the whole label only. -/
theorem readsBack_cut :
    ∃ d, dispatch wholeLib calmEnv fresh [str "GRAPH.ADD_NODE", str "1", [97, 0, 98]] =
        Outcome.returned (d, okReply) ∧
      dispatch wholeLib calmEnv d [str "GRAPH.NODE", str "1"] =
        Outcome.returned (d, array [str "label", [97], str "props", str "\x7b\x7d"]) ∧
      (d.graph.nodesByLabel .asListed [97, 0, 98]).2 = [1] ∧
      (d.graph.nodesByLabel .asListed [97]).2 = [] ∧
      ¬ ReadsBack wholeLib calmEnv d 1 [97, 0, 98] := by
  refine ⟨_, rfl, rfl, by decide, by decide, ?_⟩
  intro reads
  obtain ⟨props, answered⟩ := reads.node (str "GRAPH.NODE") (str "1") [] (by decide)
    (by decide)
  rw [show dispatch wholeLib calmEnv _ [str "GRAPH.NODE", str "1"] = Outcome.returned (_,
    array [str "label", [97], str "props", str "\x7b\x7d"]) from rfl, Outcome.returned_inj,
    Prod.mk.injEq] at answered
  have items := array_injective answered.2
  simp at items

end FastGraph.Dispatcher
