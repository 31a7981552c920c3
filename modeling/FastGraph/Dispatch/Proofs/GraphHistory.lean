import FastGraph.Dispatch.Proofs.Kept
import FastGraph.Graph.Proofs.IdealGraph
import FastGraph.Misc.Alike

/-!
# What the commands say of the edges

A command that adds or removes edges asks for one mutation, which was made if the reply is `OK` and
only then. The replies of the commands that read edges follow from the commands before them and their
replies: what was added and not taken out since, in the order in which it was added.
-/

namespace FastGraph.Dispatcher
open Program Multigraph IdealGraph

section
variable {W D : Type} [One W] (lib : FloatLib W D)

/-- The mutation that each of them asks for. -/
def edgeRequests : List (Branch (Except StdException (DynamicGraph.Op W))) :=
  [⟨str "GRAPH.DEL_NODE", (2 ≤ ·), fun args => do
      let id ← readNumber .stoi (stoi (arg args 1))
      pure (.removeNode id)⟩,
    ⟨str "GRAPH.ADD_EDGE", (4 ≤ ·), fun args => do
      let fromId ← readNumber .stoi (stoi (arg args 1))
      let toId ← readNumber .stoi (stoi (arg args 2))
      let weight ← if 5 ≤ args.length then readNumber .stof (lib.stof (arg args 4)) else pure 1
      pure (.addEdge fromId toId (arg args 3) weight)⟩,
    ⟨str "GRAPH.DEL_EDGE", (4 ≤ ·), fun args => do
      let fromId ← readNumber .stoi (stoi (arg args 1))
      let toId ← readNumber .stoi (stoi (arg args 2))
      pure (.removeEdge fromId toId (arg args 3))⟩]

/-- The mutation of the edges that a command asks for. -/
def asked : List Bytes → Option (DynamicGraph.Op W)
  | [] => none
  | word :: words =>
    match Branch.select (edgeRequests lib) (toUpper word) (word :: words) with
    | some (.ok op) => some op
    | _ => none

/-- The mutation that a command was granted, to go by its reply. -/
def granted (args : List Bytes) (reply : Bytes) : List (DynamicGraph.Op W) :=
  if reply = okReply then (asked lib args).toList else []

/-- The mutations that a sequence of commands was granted. -/
def history (calls : List (Env × List Bytes)) (replies : List Bytes) : List (DynamicGraph.Op W) :=
  (calls.zip replies).flatMap fun c => granted lib c.1.2 c.2

theorem asked_of_mem {word : Bytes} {words : List Bytes}
    {r : Branch (Except StdException (DynamicGraph.Op W))} (mem : r ∈ edgeRequests lib)
    (named : toUpper word = r.name) (enough : r.enough (word :: words).length = true) :
    asked lib (word :: words) = (r.body (word :: words)).toOption := by
  have apart : (edgeRequests lib).Pairwise Branch.Apart := by
    have names : ((edgeRequests lib).map Branch.name).Nodup := by
      rw [show (edgeRequests lib).map Branch.name = editing from rfl]
      decide
    exact (List.pairwise_map.mp names).imp Or.inl
  rw [asked, named, Branch.select_of_mem apart mem enough]
  cases r.body (word :: words) <;> rfl

theorem asked_eq_none {word : Bytes} {words : List Bytes}
    (other : toUpper word ∉ editing) :
    asked lib (word :: words) = none := by
  rw [asked]
  cases selected : Branch.select (edgeRequests lib) (toUpper word) (word :: words) with
  | none => rfl
  | some body =>
    obtain ⟨r, mem, named, -, -⟩ := Branch.select_eq_some selected
    have listed : r.name ∈ (edgeRequests lib).map Branch.name := List.mem_map_of_mem mem
    rw [← named] at listed
    exact absurd listed other

end

/-! ### The commands that change edges -/

section
variable {W D α : Type} {op : DynamicGraph.Op W}

/-- The body makes the mutation and replies `OK`, or changes nothing and replies something else. -/
def Edits (body : Action W D Bytes) (request : Except StdException (DynamicGraph.Op W)) : Prop :=
  ∀ d d' reply, (tryCatch body badArgs).outcome d = Outcome.returned (d', reply) →
    (∃ op, request = .ok op ∧ reply = okReply ∧ d'.graph.graph = d.graph.graph.apply op) ∨
      reply ≠ okReply ∧ d'.graph.graph = d.graph.graph

/-- An error reply begins with another byte. -/
theorem error_ne_okReply (msg : Bytes) : RespEncoder.error msg ≠ okReply := by
  intro same
  have heads := congrArg List.head? same
  cases heads

theorem edits_number {reader : NumReader} {x : Except NumError α} {f : α → Action W D Bytes}
    {g : α → Except StdException (DynamicGraph.Op W)} (rest : ∀ a, Edits (f a) (g a)) :
    Edits (number reader x >>= f) (readNumber reader x >>= g) := by
  intro d d' reply returned
  cases x with
  | ok a => exact rest a d d' reply returned
  | error e =>
    cases returned
    exact Or.inr ⟨error_ne_okReply _, rfl⟩

theorem edits_changeGraph {f : GraphEngine W D → Outcome StdException (GraphEngine W D)}
    (spec : ∀ g g', f g = Outcome.returned g' → g'.graph = g.graph.apply op) :
    Edits (changeGraph f >>= fun _ => pure okReply : Action W D Bytes) (pure op) := by
  intro d d' reply returned
  unfold outcome at returned
  rw [run_tryCatch, run_bind] at returned
  cases called : f d.graph with
  | none =>
    have ran : (changeGraph f : Action W D Unit).run d = none :=
      run_call_stuck (by simp only [called]; rfl)
    rw [ran] at returned
    cases returned
  | some r =>
    cases r with
    | error e =>
      have ran : (changeGraph f : Action W D Unit).run d = some (.error e, d) :=
        run_call_threw (by simp only [called]; rfl)
      rw [ran] at returned
      cases returned
      exact Or.inr ⟨error_ne_okReply _, rfl⟩
    | ok g =>
      have ran : (changeGraph f : Action W D Unit).run d = some (.ok (), { d with graph := g }) :=
        run_call_returned (by simp only [called]; rfl)
      rw [ran] at returned
      cases returned
      exact Or.inl ⟨op, rfl, rfl, spec _ g called⟩

end

section
variable {W D α : Type} [Zero W] [One W] [Add W] [LT W] [DecidableLT W]
variable [Inhabited D] [BEq D] [LT D] [DecidableLT D] [LE D] [DecidableLE D]
variable (lib : FloatLib W D) (env : Env) {b : Branch (Action W D Bytes)}
  {ops : List (DynamicGraph.Op W)} {d d' : Dispatcher W D} {args : List Bytes} {reply : Bytes}

omit [Zero W] [One W] [Add W] [LT W] [DecidableLT W] [Inhabited D] [BEq D] [LT D] [DecidableLT D]
  [LE D] [DecidableLE D] in
theorem edits_addEdge (fromId toId : Int) (rel : Bytes) (weight : W) :
    Edits (changeGraph (fun g => pure (g.addEdge fromId toId rel weight)) >>= fun _ => pure okReply :
      Action W D Bytes) (pure (.addEdge fromId toId rel weight)) := by
  refine edits_changeGraph fun g g' returned => ?_
  cases returned
  rfl

/-- A command that changes edges does what it asks for. -/
theorem edits_of_mem (mem : b ∈ graphBranches lib env) (edits : b.name ∈ editing) :
    ∃ r ∈ edgeRequests lib, b.name = r.name ∧ b.enough = r.enough ∧
      ∀ args, Edits (b.body args) (r.body args) := by
  simp only [graphBranches, List.mem_cons, List.not_mem_nil, or_false] at mem
  obtain rfl | rfl | rfl | rfl | rfl | rfl | rfl | rfl | rfl | rfl | rfl | rfl | rfl | rfl | rfl |
    rfl | rfl | rfl | rfl | rfl | rfl := mem
  case inr.inr.inl =>
    refine ⟨_, List.mem_cons_self, rfl, rfl, fun args => edits_number fun id => ?_⟩
    exact edits_changeGraph fun g g' returned => (GraphEngine.removeNode_returned returned).2.2
  case inr.inr.inr.inl =>
    refine ⟨_, List.mem_cons_of_mem _ List.mem_cons_self, rfl, rfl, fun args =>
      edits_number fun fromId => edits_number fun toId => ?_⟩
    dsimp only [weightArg]
    split
    · exact edits_number fun weight => edits_addEdge fromId toId (arg args 3) weight
    · exact edits_addEdge fromId toId (arg args 3) 1
  case inr.inr.inr.inr.inl =>
    refine ⟨_, List.mem_cons_of_mem _ (List.mem_cons_of_mem _ List.mem_cons_self), rfl, rfl,
      fun args => edits_number fun fromId => edits_number fun toId => ?_⟩
    refine edits_changeGraph fun g g' returned => ?_
    cases returned
    rfl
  all_goals
    dsimp only at edits
    exact absurd edits (by decide)

/-! ### The other commands -/

/-- The other commands leave the edges as they are. -/
theorem keeps_drawn (mem : b ∈ graphBranches lib env) (other : b.name ∉ editing)
    (args : List Bytes) : Keeps True True (fun d => d.graph.graph.Drawn ops) (b.body args) := by
  refine keeps_graph_of (P := fun g => g.graph.Drawn ops) env lib mem ?_ (fun _ _ drawn => drawn) args
  intro g g' op editor applied drawn
  cases op with
  | addNode id label props =>
    cases applied
    exact drawn.addNode id _ props
  | removeNode id => exact absurd (editor rfl) other
  | addEdge fromId toId rel weight => exact absurd (editor rfl) other
  | removeEdge fromId toId rel => exact absurd (editor rfl) other
  | nodesByLabel label =>
    cases applied
    exact drawn
  | resetQueryArena =>
    cases applied
    exact drawn
  | indexProperty label prop value nodeId coins =>
    have indexed : g.indexProperty label prop value nodeId coins = some g' :=
      Outcome.ofOption_eq_returned.mp applied
    obtain ⟨p, -, same⟩ := Option.bind_eq_some_iff.mp indexed
    cases same
    exact drawn

/-! ### Sequences of commands -/

omit [Zero W] [Add W] [LT W] [DecidableLT W] [Inhabited D] [BEq D] [LT D] [DecidableLT D] [LE D]
  [DecidableLE D] in
theorem granted_of_ne {args : List Bytes} (other : reply ≠ okReply) : granted lib args reply = [] :=
  if_neg other

omit [Zero W] [Add W] [LT W] [DecidableLT W] [Inhabited D] [BEq D] [LT D] [DecidableLT D] [LE D]
  [DecidableLE D] in
theorem granted_of_other {word : Bytes} {words : List Bytes} (other : toUpper word ∉ editing) :
    granted lib (word :: words) reply = [] := by
  rw [granted, asked_eq_none lib other]
  split <;> rfl

/-- A command adds to the history what it was granted. -/
theorem drawn_dispatch (drawn : d.graph.graph.Drawn ops)
    (returned : dispatch lib env d args = Outcome.returned (d', reply)) :
    d'.graph.graph.Drawn (ops ++ granted lib args reply) := by
  cases args with
  | nil =>
    cases returned
    rw [granted_of_ne lib (error_ne_okReply _), List.append_nil]
    exact drawn
  | cons word words =>
    have routes : ∀ n ∈ editing, Handler.ofCommand n = .graph := by decide
    by_cases route : handlerOf (word :: words) = .graph
    · unfold dispatch at returned
      rw [answer_routed, show Handler.ofCommand (toUpper word) = .graph from route] at returned
      simp only [handledBy, handleGraph] at returned
      cases selected : Branch.select (graphBranches lib env) (toUpper word) (word :: words) with
      | none =>
        rw [selected] at returned
        cases returned
        rw [granted_of_ne lib (error_ne_okReply _), List.append_nil]
        exact drawn
      | some body =>
        rw [selected] at returned
        obtain ⟨b, mem, named, enough, rfl⟩ := Branch.select_eq_some selected
        by_cases edits : b.name ∈ editing
        · obtain ⟨r, among, sameName, sameTest, does⟩ := edits_of_mem lib env mem edits
          rcases does _ d d' reply returned with ⟨op, request, rfl, graph⟩ | ⟨other, graph⟩
          · have request' : asked lib (word :: words) = some op := by
              rw [asked_of_mem lib among (named.trans sameName) (sameTest ▸ enough), request]
              rfl
            rw [granted, if_pos rfl, request', graph]
            exact drawn.apply op
          · rw [granted_of_ne lib other, List.append_nil, graph]
            exact drawn
        · rw [granted_of_other lib (named ▸ edits), List.append_nil]
          have kept : Keeps True True (fun d : Dispatcher W D => d.graph.graph.Drawn ops)
              (tryCatch (b.body (word :: words)) badArgs) :=
            (keeps_drawn lib env mem edits (word :: words)).tryCatch fun _ => .pure _
          exact kept.outcome drawn returned
    · have other : toUpper word ∉ editing := fun mem => route (routes _ mem)
      obtain ⟨e, rfl⟩ := dispatch_put env lib returned
      rwa [granted_of_other lib other, List.append_nil, put_graph route]

/-- The edges of a server are what the history of its commands left. -/
theorem drawn_dispatchEach {calls : List (Env × List Bytes)} {replies : List Bytes}
    (drawn : d.graph.graph.Drawn ops)
    (answered : (dispatchEach lib calls).outcome d = Outcome.returned (d', replies)) :
    d'.graph.graph.Drawn (ops ++ history lib calls replies) := by
  induction calls generalizing d ops replies with
  | nil =>
    cases answered
    rw [history, List.zip_nil_left, List.flatMap_nil, List.append_nil]
    exact drawn
  | cons c calls ih =>
    obtain ⟨d₁, reply, replies', first, rest, rfl⟩ := runAll_cons.mp answered
    have later := ih (drawn_dispatch lib c.1 drawn first) rest
    rwa [List.append_assoc] at later

/-- What leaves a node, as `GRAPH.NEIGHBORS` shows it. -/
def leavingReply (edges : List (Arrow Int (Bytes × W))) (id : Int) : Bytes :=
  RespEncoder.array ((leaving edges id).flatMap fun x =>
    [decimalInt x.1, x.2.1, lib.floatToString x.2.2])

/-- What enters a node, as `GRAPH.REVNEIGHBORS` shows it. -/
def enteringReply (edges : List (Arrow Int (Bytes × W))) (id : Int) : Bytes :=
  RespEncoder.array ((entering edges id).flatMap fun x => [decimalInt x.1, x.2.1])

/-- The commands that read edges are answered from the list. -/
structure ReadsEdges (d : Dispatcher W D) (edges : List (Arrow Int (Bytes × W))) : Prop where
  neighbors : ∀ word num rest id, toUpper word = str "GRAPH.NEIGHBORS" → stoi num = .ok id →
    dispatch lib env d (word :: num :: rest) = Outcome.returned (d, leavingReply lib edges id)
  revNeighbors : ∀ word num rest id, toUpper word = str "GRAPH.REVNEIGHBORS" → stoi num = .ok id →
    dispatch lib env d (word :: num :: rest) = Outcome.returned (d, enteringReply edges id)
  hasEdge : ∀ word num num' rest id id', toUpper word = str "GRAPH.HAS_EDGE" → stoi num = .ok id →
    stoi num' = .ok id' → dispatch lib env d (word :: num :: num' :: rest) =
      Outcome.returned (d, flag (edges.any fun a => a.source = id && a.target = id'))

/-- A branch whose body comes out with a reply. -/
theorem dispatch_of_body {word : Bytes} {words : List Bytes} (mem : b ∈ graphBranches lib env)
    (named : toUpper word = b.name) (enough : b.enough (word :: words).length = true)
    (body : (b.body (word :: words)).outcome d = Outcome.returned (d, reply)) :
    dispatch lib env d (word :: words) = Outcome.returned (d, reply) := by
  have others : ∀ n ∈ Handler.graph.names, n ∉ Handler.persistent := by decide
  have listed : b.name ∈ Handler.graph.names := by
    rw [← names_branches lib env]
    exact List.mem_map_of_mem mem
  unfold dispatch
  rw [answer_taken lib env (show b ∈ branches lib env .graph from mem) (others _ listed) named enough]
  exact outcome_tryCatch body

theorem readsEdges_of_drawn (drawn : d.graph.graph.Drawn ops) :
    ReadsEdges lib env d (survivors ops) := by
  constructor
  · intro word num rest id named read
    refine dispatch_of_body (b := ⟨str "GRAPH.NEIGHBORS", (2 ≤ ·), neighbors lib⟩) lib env
      (by simp [graphBranches]) named (by simp) ?_
    change (number .stoi (stoi num) >>= _ : Action W D Bytes).outcome d = _
    rw [outcome_bind (outcome_number read)]
    change Outcome.returned (d, RespEncoder.array ((Adjacency.row d.graph.graph.adj id).flatMap _)) = _
    rw [drawn.neighbors, List.flatMap_map]
    rfl
  · intro word num rest id named read
    refine dispatch_of_body (b := ⟨str "GRAPH.REVNEIGHBORS", (2 ≤ ·), revNeighbors⟩) lib env
      (by simp [graphBranches]) named (by simp) ?_
    change (number .stoi (stoi num) >>= _ : Action W D Bytes).outcome d = _
    rw [outcome_bind (outcome_number read)]
    change Outcome.returned (d, RespEncoder.array ((Adjacency.row d.graph.graph.radj id).flatMap _)) = _
    rw [drawn.reverseNeighbors, List.flatMap_map]
    rfl
  · intro word num num' rest id id' named read read'
    refine dispatch_of_body (b := ⟨str "GRAPH.HAS_EDGE", (3 ≤ ·), hasEdge⟩) lib env
      (by simp [graphBranches]) named (by simp) ?_
    change (number .stoi (stoi num) >>= fun _ => number .stoi (stoi num') >>= _ :
      Action W D Bytes).outcome d = _
    rw [outcome_bind (outcome_number read), outcome_bind (outcome_number read')]
    change Outcome.returned (d, flag ((Adjacency.row d.graph.graph.adj id).any _)) = _
    rw [drawn.neighbors, List.any_map, any_leaving]
    rfl

/-- After every sequence of commands that a server without edges answers, the commands that read edges
are answered from the edges that the commands added and did not take out since, in the order in which
they were added. -/
theorem readsEdges_history {calls : List (Env × List Bytes)} {replies : List Bytes}
    (start : d.graph = .empty)
    (answered : (dispatchEach lib calls).outcome d = Outcome.returned (d', replies)) :
    ReadsEdges lib env d' (survivors (history lib calls replies)) := by
  have drawn : d.graph.graph.Drawn [] := by
    rw [start]
    exact DynamicGraph.drawn_empty
  exact readsEdges_of_drawn lib env (drawn_dispatchEach lib drawn answered)

end

/-- Two edges, of which one is taken out, and a command that is not granted. -/
def edits : List (Env × List Bytes) :=
  [(calmEnv, [str "GRAPH.ADD_EDGE", str "1", str "2", str "r"]),
    (calmEnv, [str "GRAPH.ADD_EDGE", str "1", str "3", str "s", str "7"]),
    (calmEnv, [str "GRAPH.DEL_EDGE", str "1", str "x", str "s"]),
    (calmEnv, [str "graph.del_edge", str "1", str "2", str "r"])]

theorem readsEdges_history_edits : ∃ d replies,
    (dispatchEach wholeLib edits).outcome fresh = Outcome.returned (d, replies) ∧
      survivors (history wholeLib edits replies) = [⟨1, 3, (str "s", 7)⟩] ∧
      ReadsEdges wholeLib calmEnv d (survivors (history wholeLib edits replies)) := by
  obtain ⟨d, answered⟩ : ∃ d, (dispatchEach wholeLib edits).outcome fresh = Outcome.returned
      (d, [okReply, okReply, RespEncoder.error (str "bad args: stoi"), okReply]) := ⟨_, rfl⟩
  exact ⟨d, _, answered, by decide, readsEdges_history wholeLib calmEnv rfl answered⟩

end FastGraph.Dispatcher
