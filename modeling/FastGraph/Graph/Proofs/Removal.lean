import FastGraph.Graph.Proofs.GraphEngine
import FastGraph.Index.Proofs.Removal

/-!
# What queries return of removed nodes

`remove_node` takes a node out of the property index if the node table has the node, and only then.
Values may be put into the index before the node is added and after it is removed.
-/

namespace FastGraph.GraphEngine
open PropertyIndex

section
variable {W E : Type} [LinearOrder E]

/-- Some query returns the node. -/
def Returns (e : GraphEngine W (WithNan E)) (id : Int) : Prop :=
  ∃ label prop,
    (∃ minVal maxVal ids, e.rangeQuery label prop minVal maxVal = Outcome.returned ids ∧ id ∈ ids) ∨
    ∃ value ids, e.exactQuery label prop value = Outcome.returned ids ∧ id ∈ ids

/-- The node table has the node, with a label. -/
def Labels (e : GraphEngine W (WithNan E)) (id : Int) : Prop :=
  ∃ info ptr, e.graph.nodeMeta id = some info ∧ info.labelPtr = some ptr

omit [LinearOrder E] in
/-- The node that a call puts into the index. -/
def Op.indexes : Op W (WithNan E) → Option Int
  | .indexProperty _ _ _ nodeId _ => some nodeId
  | _ => none

variable {e : GraphEngine W (WithNan E)} {live : Bytes → Int → E → Prop} {id : Int}

theorem returns_iff : Returns e id ↔ e.propIndex.Returns id := by
  constructor
  · rintro ⟨label, prop, ⟨minVal, maxVal, ids, found, mem⟩ | ⟨value, ids, found, mem⟩⟩
    · exact ⟨label, prop, minVal, maxVal, ids, found, mem⟩
    · exact ⟨label, prop, value, value, ids, found, mem⟩
  · rintro ⟨label, prop, minVal, maxVal, ids, found, mem⟩
    exact ⟨label, prop, Or.inl ⟨minVal, maxVal, ids, found, mem⟩⟩

theorem attempt_of_returned {e' : GraphEngine W (WithNan E)} {op : Op W (WithNan E)}
    (stepped : e.apply op = Outcome.returned e') : e.attempt op = some e' := by
  rw [attempt, stepped]
  rfl

theorem attempt_of_threw {ex : StdException} {op : Op W (WithNan E)}
    (stepped : e.apply op = Outcome.threw ex) : e.attempt op = some e := by
  rw [attempt, stepped]
  rfl

/-- `remove_node` of a node without a label does nothing to the index. -/
theorem attempt_removeNode_of_not (unlabelled : ¬ Labels e id) :
    ∃ e', e.attempt (.removeNode id) = some e' ∧ e'.propIndex = e.propIndex := by
  cases found : e.graph.nodeMeta id with
  | none =>
    have stepped : e.removeNode id = Outcome.returned { e with graph := e.graph.removeNode id } := by
      simp only [GraphEngine.removeNode, found, Outcome.pure_eq]
    exact ⟨_, attempt_of_returned stepped, rfl⟩
  | some info =>
    cases pointer : info.labelPtr with
    | none =>
      have stepped : e.removeNode id = Outcome.threw .nullString := by
        simp only [GraphEngine.removeNode, found, labelString, pointer]
        rfl
      exact ⟨e, attempt_of_threw stepped, rfl⟩
    | some ptr => exact absurd ⟨info, ptr, found, pointer⟩ unlabelled

/-- `remove_node` of a node with a label takes it out of the index. -/
theorem attempt_removeNode (tracks : Tracks e.propIndex live) (labelled : Labels e id) :
    ∃ e', e.attempt (.removeNode id) = some e' ∧
      Tracks e'.propIndex fun key i s => live key i s ∧ i ≠ id := by
  obtain ⟨info, ptr, found, pointer⟩ := labelled
  obtain ⟨p, removed, tracks'⟩ := tracks.removeNode id
  have stepped : e.removeNode id =
      Outcome.returned { e with propIndex := p, graph := e.graph.removeNode id } := by
    simp only [GraphEngine.removeNode, found, labelString, pointer, removed]
    rfl
  exact ⟨_, attempt_of_returned stepped, tracks'⟩

/-- What a call does to the index: a node that is not live stays so unless the call names it. -/
theorem attempt_spec (tracks : Tracks e.propIndex live) (op : Op W (WithNan E))
    (isInt : ∀ id, op.indexes = some id → IsInt id) :
    ∃ e' live', e.attempt op = some e' ∧ Tracks e'.propIndex live' ∧
      ∀ id, op.indexes ≠ some id → (∀ key s, ¬ live key id s) → ∀ key s, ¬ live' key id s := by
  cases op with
  | indexProperty label prop value nodeId coins =>
    obtain ⟨p, added, tracks'⟩ := tracks.add label prop value (isInt nodeId rfl) coins
    have stepped : e.apply (.indexProperty label prop value nodeId coins) =
        Outcome.returned { e with propIndex := p } := by
      simp only [apply, indexProperty, added]
      rfl
    refine ⟨_, _, attempt_of_returned stepped, tracks', ?_⟩
    · rintro id other gone key s (was | ⟨-, rfl, -⟩)
      · exact gone key s was
      · exact other rfl
  | removeNode nodeId =>
    by_cases labelled : Labels e nodeId
    · obtain ⟨e', step, tracks'⟩ := attempt_removeNode tracks labelled
      exact ⟨e', _, step, tracks', fun id _ gone key s was => gone key s was.1⟩
    · obtain ⟨e', step, same⟩ := attempt_removeNode_of_not labelled
      exact ⟨e', live, step, by rwa [same], fun id _ gone => gone⟩
  | addNode id label props => exact ⟨_, live, rfl, tracks, fun id _ gone => gone⟩
  | addEdge fromId toId rel weight => exact ⟨_, live, rfl, tracks, fun id _ gone => gone⟩
  | removeEdge fromId toId rel => exact ⟨_, live, rfl, tracks, fun id _ gone => gone⟩
  | nodesByLabel label => exact ⟨_, live, rfl, tracks, fun id _ gone => gone⟩
  | resetQueryArena => exact ⟨_, live, rfl, tracks, fun id _ gone => gone⟩

/-- What a run does to the index. -/
theorem attempts_spec (tracks : Tracks e.propIndex live) (ops : List (Op W (WithNan E)))
    (isInt : ∀ op ∈ ops, ∀ id, op.indexes = some id → IsInt id) :
    ∃ e' live', attempts ops e = some e' ∧ Tracks e'.propIndex live' ∧
      ∀ id, (∀ op ∈ ops, op.indexes ≠ some id) → (∀ key s, ¬ live key id s) →
        ∀ key s, ¬ live' key id s := by
  induction ops generalizing e live with
  | nil => exact ⟨e, live, rfl, tracks, fun id _ gone => gone⟩
  | cons op ops ih =>
    obtain ⟨e₁, live₁, step, tracks₁, stays₁⟩ := attempt_spec tracks op (isInt op (by simp))
    obtain ⟨e', live', rest, tracks', stays'⟩ := ih tracks₁ fun op mem => isInt op (by simp [mem])
    refine ⟨e', live', ?_, tracks', ?_⟩
    · rw [attempts, List.foldlM_cons, step]
      exact rest
    · intro id unnamed gone
      exact stays' id (fun op mem => unnamed op (by simp [mem]))
        (stays₁ id (unnamed op (by simp)) gone)

/-- After a call of `remove_node` in the run, and until a call of `index_property` names the node,
no query returns it. -/
def StaysRemoved (ops : List (Op W (WithNan E))) : Prop :=
  ∀ before id after later, ops = before ++ .removeNode id :: after ++ later →
    (∀ op ∈ after, op.indexes ≠ some id) →
    ∃ e, attempts (before ++ .removeNode id :: after) empty = some e ∧ ¬ Returns e id

/-- Removed nodes stay removed in the runs in which, in front of each call of `remove_node`, no
query returns the node or the node table has it with a label, and in no other run. -/
theorem staysRemoved_iff (ops : List (Op W (WithNan E)))
    (isInt : ∀ op ∈ ops, ∀ id, op.indexes = some id → IsInt id) :
    StaysRemoved ops ↔ ∀ before id after e, ops = before ++ .removeNode id :: after →
      attempts before empty = some e → ¬ Returns e id ∨ Labels e id := by
  constructor
  · intro stays before id after e cut ran
    by_contra neither
    rw [not_or, not_not] at neither
    obtain ⟨returned, unlabelled⟩ := neither
    obtain ⟨e', ran', gone⟩ := stays before id [] after (by simp [cut]) (by simp)
    obtain ⟨e'', step, same⟩ := attempt_removeNode_of_not unlabelled
    rw [attempts_append, ran, Option.bind_some] at ran'
    have last : attempts [Op.removeNode id] e = some e'' := by
      rw [attempts, List.foldlM_cons, step]
      rfl
    obtain rfl := Option.some.inj (last.symm.trans ran')
    rw [returns_iff, same, ← returns_iff] at gone
    exact gone returned
  · rintro condition before id after later rfl unnamed
    obtain ⟨e, live, ran, tracks, -⟩ := attempts_spec (e := empty) tracks_empty before fun op mem =>
      isInt op (by simp [mem])
    -- behind the call nothing is live of the node
    have removed : ∃ e' live', e.attempt (.removeNode id) = some e' ∧ Tracks e'.propIndex live' ∧
        ∀ key s, ¬ live' key id s := by
      by_cases labelled : Labels e id
      · obtain ⟨e', step, tracks'⟩ := attempt_removeNode tracks labelled
        exact ⟨e', _, step, tracks', fun key s was => was.2 rfl⟩
      · have never := (condition before id (after ++ later) e (by simp) ran).resolve_right labelled
        rw [returns_iff] at never
        obtain ⟨e', step, same⟩ := attempt_removeNode_of_not labelled
        exact ⟨e', _, step, same ▸ tracks.hide never, fun key s was => was.2 rfl⟩
    obtain ⟨e₁, live₁, step, tracks₁, gone⟩ := removed
    obtain ⟨e', live', rest, tracks', stays⟩ := attempts_spec tracks₁ after fun op mem =>
      isInt op (by simp [mem])
    refine ⟨e', ?_, ?_⟩
    · rw [attempts_append, ran, Option.bind_some, attempts, List.foldlM_cons, step]
      exact rest
    · rw [returns_iff]
      exact tracks'.not_returns (stays id unnamed gone)

end

/-- A node that is added, indexed and removed. -/
theorem staysRemoved_added :
    StaysRemoved ([.addNode 7 (str "Person") [], .indexProperty (str "Person") (str "age")
      (.num 30) 7 [], .removeNode 7] : List (Op Unit (WithNan Int))) := by
  refine (staysRemoved_iff _ ?_).mpr ?_
  · simp [Op.indexes, IsInt]
  · intro before id after e cut ran
    rcases before with _ | ⟨op₁, _ | ⟨op₂, _ | ⟨op₃, before⟩⟩⟩ <;> simp at cut
    obtain ⟨rfl, rfl, rfl, rfl⟩ := cut
    cases ran
    exact Or.inr ⟨_, _, rfl, rfl⟩

/-- A node that is indexed before it is added, and removed. -/
theorem returned_after_remove :
    ¬ StaysRemoved ([.indexProperty (str "Person") (str "age") (.num 30) 7 [], .removeNode 7] :
      List (Op Unit (WithNan Int))) := by
  intro stays
  obtain ⟨e, ran, gone⟩ := stays [.indexProperty (str "Person") (str "age") (.num 30) 7 []] 7 [] []
    rfl (by simp)
  cases ran
  exact gone ⟨str "Person", str "age", Or.inr ⟨.num 30, [7], rfl, by simp⟩⟩

end FastGraph.GraphEngine
