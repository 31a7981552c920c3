import FastGraph.Dispatch.Proofs.Replies

/-!
# Calls answered with an error

A call that takes a branch is never told that its command is unknown; the three commands of
`Persistence` always are. A call that is answered with an error has changed nothing that a later
call could read: the branches read all their numbers first and change one store last.
-/

namespace FastGraph.Dispatcher
open Program RespEncoder

/-! ### Unknown commands -/

/-- The reply says that a command is unknown. -/
def TellsUnknown (reply : Bytes) : Prop := str "-ERR unknown " <+: reply

theorem tellsUnknown_unknown (h : Handler) (args : List Bytes) : TellsUnknown (unknown h args) := by
  cases h <;> exact ⟨_, rfl⟩

theorem Answer.not_tellsUnknown {reply : Bytes} (answer : Answer reply) : ¬ TellsUnknown reply := by
  intro tells
  have shorter : str "-ERR " <+: str "-ERR unknown " := by decide
  exact answer.not_error (shorter.trans tells)

section
variable {W D : Type} [Zero W] [One W] [Add W] [LT W] [DecidableLT W]
variable [Inhabited D] [BEq D] [LT D] [DecidableLT D] [LE D] [DecidableLE D]
variable (lib : FloatLib W D) (env : Env) {h : Handler} {b : Branch (Action W D Bytes)}
variable {word : Bytes} {words : List Bytes}

/-- No branch is taken for a command of `Persistence`. -/
theorem select_persistent (persistent : toUpper word ∈ Handler.persistent) :
    Branch.select (branches lib env (.ofCommand (toUpper word))) (toUpper word) (word :: words) =
      none := by
  cases selected : Branch.select (branches lib env (.ofCommand (toUpper word))) (toUpper word)
      (word :: words) with
  | none => rfl
  | some body =>
    obtain ⟨b, -, named, own, -⟩ := taken_of_select lib env selected
    exact absurd (named ▸ persistent) own

theorem not_tellsUnknown_of_taken (mem : b ∈ branches lib env h)
    (own : b.name ∉ Handler.persistent) (named : toUpper word = b.name)
    (enough : b.enough (word :: words).length = true) {d d' : Dispatcher W D} {reply : Bytes}
    (returned : dispatch lib env d (word :: words) = Outcome.returned (d', reply)) :
    ¬ TellsUnknown reply := by
  by_cases ping : toUpper word = str "PING"
  · rw [dispatch_ping lib env ping] at returned
    cases returned
    rintro ⟨rest, same⟩
    exact absurd (List.cons.inj same).1 (by decide)
  · rw [named] at ping
    unfold dispatch at returned
    rw [answer_taken lib env mem own named enough] at returned
    rcases (yields_enclosed lib env mem own ping _).outcome returned with answer | ⟨e, rfl⟩
    · exact answer.not_tellsUnknown
    · rintro ⟨rest, same⟩
      have sixth := congrArg (fun s => s[5]?) same
      exact absurd sixth (by simp [str, RespEncoder.error]; decide)

/-- A call that satisfies the test of a branch runs that branch, and is not told that its
command is unknown, exactly if the branch is none of `Persistence`. -/
theorem executed_iff (mem : b ∈ branches lib env h) (named : toUpper word = b.name)
    (enough : b.enough (word :: words).length = true) (d : Dispatcher W D) :
    (answer lib env (word :: words) = enclosed h (b.body (word :: words)) ∧
      ∀ d' reply, dispatch lib env d (word :: words) = Outcome.returned (d', reply) →
        ¬ TellsUnknown reply) ↔
    b.name ∉ Handler.persistent := by
  constructor
  · rintro ⟨-, known⟩ persistent
    have unselected : Branch.select (branches lib env (.ofCommand (toUpper word))) (toUpper word)
        (word :: words) = none := select_persistent lib env (named ▸ persistent)
    have missed := dispatch_missed lib env (d := d) unselected
    exact known d _ missed (tellsUnknown_unknown _ _)
  · intro own
    refine ⟨answer_taken lib env mem own named enough, ?_⟩
    intro d' reply returned
    exact not_tellsUnknown_of_taken lib env mem own named enough returned

/-- A key is read. -/
theorem executed_iff_get :
    (answer wholeLib calmEnv [str "get", str "k"] =
        enclosed .kv (Dispatcher.get calmEnv [str "get", str "k"]) ∧
      ∀ d' reply, dispatch wholeLib calmEnv fresh [str "get", str "k"] =
        Outcome.returned (d', reply) → ¬ TellsUnknown reply) ↔
    str "GET" ∉ Handler.persistent :=
  executed_iff wholeLib calmEnv (h := .kv) (b := ⟨str "GET", (2 ≤ ·), Dispatcher.get calmEnv⟩)
    (by simp [branches, kvBranches]) (by decide) (by decide) fresh

/-- A snapshot that is asked for is not made. -/
theorem save_not_executed :
    (∃ b ∈ branches wholeLib calmEnv .zset, b.name = str "SAVE" ∧ b.enough 1 = true) ∧
      dispatch wholeLib calmEnv fresh [str "SAVE"] =
        Outcome.returned (fresh, str "-ERR unknown command 'SAVE'\r\n") :=
  ⟨⟨⟨str "SAVE", fun _ => true, save wholeLib calmEnv⟩, by simp [branches, zsetBranches], rfl, rfl⟩,
    dispatch_missed wholeLib calmEnv (select_persistent wholeLib calmEnv (by decide))⟩

end

/-! ### What an error changes -/

section
variable {W D : Type}

/-- Two dispatchers store the same: the keys with their values and deadlines, the graph with its
edge count, the property index and the sorted sets. -/
structure SameContents (d d' : Dispatcher W D) : Prop where
  kv : d'.kv = d.kv
  graph : d'.graph.graph = d.graph.graph
  propIndex : d'.graph.propIndex = d.graph.propIndex
  zsets : d'.zsets = d.zsets

instance : Std.Refl (SameContents (W := W) (D := D)) where
  refl _ := ⟨rfl, rfl, rfl, rfl⟩

instance : IsTrans (Dispatcher W D) SameContents where
  trans _ _ _ first second := ⟨second.kv.trans first.kv, second.graph.trans first.graph,
    second.propIndex.trans first.propIndex, second.zsets.trans first.zsets⟩

variable {α : Type}

theorem moves_number (reader : NumReader) (x : Except NumError α) :
    Moves (number reader x : Action W D α) SameContents := moves_ask _

/-- A call of the graph engine that leaves the graph and the index as they are. -/
theorem moves_onGraph {f : GraphEngine W D → Outcome StdException (GraphEngine W D × α)}
    (same : ∀ g g' a, f g = Outcome.returned (g', a) →
      g'.graph = g.graph ∧ g'.propIndex = g.propIndex) :
    Moves (onGraph f) SameContents := by
  apply moves_call
  intro d d' a returned
  obtain ⟨⟨g', a'⟩, called, stored⟩ := Outcome.bind_eq_returned.mp returned
  cases stored
  obtain ⟨graph, propIndex⟩ := same d.graph g' a called
  exact ⟨rfl, graph, propIndex, rfl⟩

/-- A call of the graph engine that throws. -/
theorem fails_changeGraph (f : GraphEngine W D → Outcome StdException (GraphEngine W D)) :
    Fails (changeGraph f : Action W D Unit) SameContents := fails_call _

theorem fails_onZsets (f : SortedSetEngine D → Option (SortedSetEngine D × α)) :
    Fails (onZsets f : Action W D α) SameContents := fails_call _

end

section
variable {W D : Type} [Zero W] [One W] [Add W] [LT W] [DecidableLT W]
variable [Inhabited D] [BEq D] [LT D] [DecidableLT D] [LE D] [DecidableLE D]
variable (lib : FloatLib W D) (env : Env) {b : Branch (Action W D Bytes)}

theorem fails_graphBranches (mem : b ∈ graphBranches lib env) (args : List Bytes) :
    Fails (b.body args) SameContents := by
  simp only [graphBranches, List.mem_cons, List.not_mem_nil, or_false] at mem
  obtain rfl | rfl | rfl | rfl | rfl | rfl | rfl | rfl | rfl | rfl | rfl | rfl | rfl | rfl | rfl |
    rfl | rfl | rfl | rfl | rfl | rfl := mem
  · exact .bind (moves_number _ _) fun _ => (fails_changeGraph _).last
  · exact .bind (moves_number _ _) fun _ => (fails_changeGraph _).last
  · exact .bind (moves_number _ _) fun _ => (fails_changeGraph _).last
  · refine .bind (moves_number _ _) fun _ => .bind (moves_number _ _) fun _ => ?_
    refine .bind ?_ fun _ => (fails_changeGraph _).last
    unfold weightArg
    split
    · exact moves_number _ _
    · exact .pure _
  · exact .bind (moves_number _ _) fun _ => .bind (moves_number _ _) fun _ =>
      (fails_changeGraph _).last
  · refine .bind (moves_number _ _) fun _ => .bind (moves_ask _) fun info => ?_
    cases info with
    | none => exact .pure _
    | some info => exact (moves_ask _).fails.last
  · exact .bind (moves_number _ _) fun _ => (moves_ask _).fails.last
  · exact .bind (moves_number _ _) fun _ => .bind (moves_number _ _) fun _ =>
      (moves_ask _).fails.last
  · exact .bind (moves_number _ _) fun _ => (moves_ask _).fails.last
  · exact .bind (moves_number _ _) fun _ => (moves_ask _).fails.last
  · exact (fails_call _).last
  · refine .bind (moves_number _ _) fun _ => .bind (moves_number _ _) fun _ => ?_
    refine .bind (moves_onGraph ?_) fun _ => .bind (moves_onGraph ?_) fun path => ?_
    · intro g g' _ reset
      cases reset
      exact ⟨rfl, rfl⟩
    · intro g g' path searched
      obtain ⟨⟨arena, path⟩, -, stored⟩ := Outcome.bind_eq_returned.mp searched
      cases stored
      exact ⟨rfl, rfl⟩
    · split <;> exact .pure _
  · refine .bind (moves_number _ _) fun _ => .bind (moves_number _ _) fun _ => ?_
    refine .bind (moves_ask _) fun path => ?_
    split <;> exact .pure _
  · exact .bind (moves_number _ _) fun _ => .bind (moves_number _ _) fun _ =>
      (moves_ask _).fails.last
  · exact .bind (moves_number _ _) fun _ => (moves_ask _).fails.last
  · exact (moves_ask _).fails.last
  · exact .bind (moves_number _ _) fun _ => (moves_ask _).fails.last
  · exact (moves_ask _).fails.last
  · refine .bind ?_ fun _ => (fails_changeGraph _).last
    unfold indexNumbers
    split
    · exact .bind (moves_number _ _) fun _ => .bind (moves_number _ _) fun _ => .pure _
    · exact .bind (moves_number _ _) fun _ => .bind (moves_number _ _) fun _ => .pure _
  · exact .bind (moves_number _ _) fun _ => .bind (moves_number _ _) fun _ =>
      (moves_ask _).fails.last
  · exact .bind (moves_number _ _) fun _ => (moves_ask _).fails.last

omit [Zero W] [One W] [Add W] [LT W] [DecidableLT W] in
theorem fails_zsetBranches (mem : b ∈ zsetBranches lib env) (own : b.name ∉ Handler.persistent)
    (args : List Bytes) : Fails (b.body args) SameContents := by
  simp only [zsetBranches, List.mem_cons, List.not_mem_nil, or_false] at mem
  obtain rfl | rfl | rfl | rfl | rfl | rfl | rfl | rfl | rfl | rfl := mem
  · exact .bind (moves_number _ _) fun _ => (fails_onZsets _).last
  · exact (fails_onZsets _).last
  · exact (moves_ask _).fails.last
  · exact .bind (moves_number _ _) fun _ => .bind (moves_number _ _) fun _ =>
      (moves_ask _).fails.last
  · exact .bind (moves_number _ _) fun _ => .bind (moves_number _ _) fun _ =>
      (moves_ask _).fails.last
  · exact (moves_ask _).fails.last
  · exact (moves_ask _).fails.last
  all_goals exact absurd (by simp [Handler.persistent]) own

/-- A call that is answered with an error leaves all contents as they were. -/
theorem sameContents_of_error {d d' : Dispatcher W D} {args : List Bytes} {reply : Bytes}
    (returned : dispatch lib env d args = Outcome.returned (d', reply))
    (error : str "-ERR " <+: reply) : SameContents d d' := by
  cases args with
  | nil =>
    cases returned
    exact Std.Refl.refl d
  | cons word words =>
    cases selected : Branch.select (branches lib env (.ofCommand (toUpper word))) (toUpper word)
        (word :: words) with
    | none =>
      rw [dispatch_missed lib env selected] at returned
      cases returned
      exact Std.Refl.refl d
    | some body =>
      obtain ⟨b, mem, named, own, enough⟩ := taken_of_select lib env selected
      by_cases ping : toUpper word = str "PING"
      · rw [dispatch_ping lib env ping] at returned
        cases returned
        exact Std.Refl.refl d
      · rw [named] at ping mem
        have answers := answers_branches lib env mem own ping (word :: words)
        unfold dispatch at returned
        rw [answer_taken lib env mem own named enough] at returned
        -- The branch has not answered the error, so its handler has caught an exception.
        have caught (fails : Fails (b.body (word :: words)) SameContents)
            (returned : (tryCatch (b.body (word :: words)) badArgs).outcome d =
              Outcome.returned (d', reply)) : SameContents d d' := by
          rcases fails.caught returned with ended | same
          · exact absurd error (answers.outcome ended).not_error
          · exact same
        cases handler : Handler.ofCommand b.name with
        | kv =>
          rw [handler] at returned
          exact absurd error (answers.outcome returned).not_error
        | graph =>
          rw [handler] at returned mem
          exact caught (fails_graphBranches lib env mem _) returned
        | zset =>
          rw [handler] at returned mem
          exact caught (fails_zsetBranches lib env mem own _) returned

end

/-- Calls one after the other: the store they lead to. -/
def stock (calls : List (List Bytes)) : Outcome StdException (Dispatcher UInt32 Int) :=
  calls.foldlM (fun d args => do
    let (d, _) ← dispatch wholeLib calmEnv d args
    pure d) fresh

/-- An edge whose weight is no number is not added to a store that has a key, an edge, an indexed
id and a sorted set. -/
theorem sameContents_of_error_addEdge :
    ∃ d d', stock [[str "SET", str "k", str "v"],
        [str "GRAPH.ADD_EDGE", str "1", str "2", str "r", str "3"],
        [str "GRAPH.INDEX_PROP", str "1", str "L", str "p", str "7"],
        [str "ZADD", str "z", str "4", str "a"]] = Outcome.returned d ∧
      d.kv.map.get (str "k") = some (some (str "v")) ∧ d.graph.graph.hasEdge 1 2 = true ∧
      d.graph.exactQuery (str "L") (str "p") 7 = Outcome.returned [1] ∧
      d.zsets.zcard (str "z") = 1 ∧
      dispatch wholeLib calmEnv d [str "GRAPH.ADD_EDGE", str "1", str "2", str "r", str "heavy"] =
        Outcome.returned (d', str "-ERR bad args: stof\r\n") ∧ SameContents d d' := by
  obtain ⟨d, stocked, key, edge, indexed, card, returned⟩ : ∃ d, stock [[str "SET", str "k", str "v"],
        [str "GRAPH.ADD_EDGE", str "1", str "2", str "r", str "3"],
        [str "GRAPH.INDEX_PROP", str "1", str "L", str "p", str "7"],
        [str "ZADD", str "z", str "4", str "a"]] = Outcome.returned d ∧
      d.kv.map.get (str "k") = some (some (str "v")) ∧ d.graph.graph.hasEdge 1 2 = true ∧
      d.graph.exactQuery (str "L") (str "p") 7 = Outcome.returned [1] ∧
      d.zsets.zcard (str "z") = 1 ∧
      dispatch wholeLib calmEnv d [str "GRAPH.ADD_EDGE", str "1", str "2", str "r", str "heavy"] =
        Outcome.returned (d, str "-ERR bad args: stof\r\n") := ⟨_, rfl, rfl, rfl, rfl, rfl, rfl⟩
  exact ⟨d, d, stocked, key, edge, indexed, card, returned,
    sameContents_of_error wholeLib calmEnv returned ⟨str "bad args: stof\r\n", by decide⟩⟩

end FastGraph.Dispatcher
