import FastGraph.Dispatch.Proofs.Calls
import FastGraph.Dispatch.Proofs.Parts
import FastGraph.Graph.Proofs.GraphEngine

/-!
# What a command keeps

What holds of an engine after every call holds of it after every command, and no command changes
the files.
-/

namespace FastGraph.Dispatcher
open Program

section
variable {W D α : Type} {P : KVEngine → Prop} (env : Env) {b : Branch (Action W D Bytes)}

/-- Every call of the key-value engine keeps `P`. -/
def CallsKeep (P : KVEngine → Prop) : Prop :=
  ∀ kv kv' now c r, KVEngine.call kv now c = some (kv', r) → P kv → P kv'

theorem keeps_onKv_call (calls : CallsKeep P) {f : KVEngine → Option (KVEngine × α)}
    (called : ∀ kv kv' a, f kv = some (kv', a) →
      kv' = kv ∨ ∃ c r, KVEngine.call kv env.now c = some (kv', r)) :
    Keeps True True (fun d => P d.kv) (onKv f : Action W D α) := by
  apply keeps_call
  · exact fun _ _ _ => trivial
  · exact fun _ _ _ _ => trivial
  · intro d d' a holds returned
    obtain ⟨⟨kv', a'⟩, here, stored⟩ := Outcome.bind_eq_returned.mp returned
    cases stored
    rcases called d.kv kv' a (Outcome.ofOption_eq_returned.mp here) with rfl | ⟨c, r, call⟩
    · exact holds
    · exact calls d.kv kv' env.now c r call holds

theorem keeps_anyNumber {I : Dispatcher W D → Prop} {reader : NumReader} {x : Except NumError α} :
    Keeps True True I (number reader x : Action W D α) := keeps_number fun _ _ => trivial

theorem keeps_anyOptions {I : Dispatcher W D → Prop} (words : List Bytes) (ttlMs : Int) :
    Keeps True True I (setOptions words ttlMs : Action W D Int) := by
  induction words generalizing ttlMs with
  | nil => exact .pure _
  | cons opt words ih =>
    cases words with
    | nil => exact .pure _
    | cons val rest =>
      refine .bind ?_ fun ms => ih ms
      unfold setOption
      split
      · exact .bind keeps_anyNumber fun _ => .pure _
      · split
        · exact keeps_anyNumber
        · exact .pure _

/-- The commands on the keys keep what the calls keep. -/
theorem keeps_kv_calls (calls : CallsKeep P) (mem : b ∈ kvBranches env) (args : List Bytes) :
    Keeps True True (fun d => P d.kv) (b.body args) := by
  have expires (key : Bytes) (ms : Int) :
      Keeps True True (fun d => P d.kv) (onKv fun kv => kv.expire key ms env.now : Action W D Bool) :=
    keeps_onKv_call env calls fun kv kv' done called =>
      .inr ⟨.expire key ms, .flag done, by simp [KVEngine.call, called]⟩
  have asks : Keeps True True (fun d => P d.kv) (keyTtl env args : Action W D Int) := by
    refine keeps_onKv_call env calls fun kv kv' ms called => .inl ?_
    obtain ⟨n, -, same⟩ := Option.map_eq_some_iff.mp called
    exact (congrArg Prod.fst same).symm
  simp only [kvBranches, List.mem_cons, List.not_mem_nil, or_false] at mem
  obtain rfl | rfl | rfl | rfl | rfl | rfl | rfl | rfl | rfl | rfl | rfl | rfl := mem
  case _ => exact .pure _
  case _ =>
    refine .bind (keeps_anyOptions _ _) fun ms => .bind (keeps_onKv_call env calls ?_) fun _ => .pure _
    intro kv kv' inserted called
    exact .inr ⟨.set (arg args 1) (arg args 2) ms, .flag inserted, by simp [KVEngine.call, called]⟩
  case _ =>
    refine .bind (keeps_onKv_call env calls ?_) fun _ => .pure _
    intro kv kv' v called
    exact .inr ⟨.get (arg args 1), .value v, by simp [KVEngine.call, called]⟩
  case _ =>
    refine .bind (keeps_onKv_call env calls ?_) fun _ => .pure _
    intro kv kv' deleted called
    exact .inr ⟨.del (arg args 1), .flag deleted, by simp [KVEngine.call, called]⟩
  case _ =>
    refine .bind (keeps_onKv_call env calls ?_) fun _ => .pure _
    intro kv kv' present called
    exact .inr ⟨.existsKey (arg args 1), .flag present, by simp [KVEngine.call, called]⟩
  case _ => exact .bind keeps_anyNumber fun _ => .bind (expires _ _) fun _ => .pure _
  case _ => exact .bind keeps_anyNumber fun _ => .bind (expires _ _) fun _ => .pure _
  case _ =>
    refine .bind asks fun ms => ?_
    split
    · exact .pure _
    · split <;> exact .pure _
  case _ => exact .bind asks fun _ => .pure _
  case _ =>
    refine .bind (keeps_onKv_call env calls ?_) fun _ => .pure _
    intro kv kv' done called
    refine .inr ⟨.persist (arg args 1), .flag done, ?_⟩
    rw [Option.some.injEq] at called
    simp [KVEngine.call, called]
  case _ =>
    refine .bind (keeps_onKv_call env calls ?_) fun _ => .pure _
    intro kv kv' n called
    cases called
    exact .inl rfl
  case _ => exact .pure _

end

section
variable {W D α : Type} [Zero W] [One W] [Add W] [LT W] [DecidableLT W]
variable [Inhabited D] [BEq D] [LT D] [DecidableLT D] [LE D] [DecidableLE D]
variable {P : GraphEngine W D → Prop} (env : Env) (lib : FloatLib W D)
  {b : Branch (Action W D Bytes)}

/-- Every call of the graph engine keeps `P`, and so does a change of the arena of a query. -/
structure OpsKeep (P : GraphEngine W D → Prop) : Prop where
  op : ∀ g g' op, GraphEngine.apply g op = Outcome.returned g' → P g → P g'
  arena : ∀ (g : GraphEngine W D) arena, P g → P { g with queryArena := arena }

omit [Zero W] [One W] [Add W] [LT W] [DecidableLT W] [Inhabited D] [BEq D] [LT D] [DecidableLT D]
  [LE D] [DecidableLE D] in
theorem keeps_onGraph_of {f : GraphEngine W D → Outcome StdException (GraphEngine W D × α)}
    (kept : ∀ g g' a, f g = Outcome.returned (g', a) → P g → P g') :
    Keeps True True (fun d => P d.graph) (onGraph f) := by
  apply keeps_call
  · exact fun _ _ _ => trivial
  · exact fun _ _ _ _ => trivial
  · intro d d' a holds returned
    obtain ⟨⟨g', a'⟩, here, stored⟩ := Outcome.bind_eq_returned.mp returned
    cases stored
    exact kept d.graph g' a here holds

omit [Zero W] [One W] [Add W] [LT W] [DecidableLT W] [Inhabited D] [BEq D] [LT D] [DecidableLT D]
  [LE D] [DecidableLE D] in
theorem keeps_changeGraph_of {f : GraphEngine W D → Outcome StdException (GraphEngine W D)}
    (kept : ∀ g g', f g = Outcome.returned g' → P g → P g') :
    Keeps True True (fun d => P d.graph) (changeGraph f : Action W D Unit) := by
  refine keeps_onGraph_of fun g g' _ returned => ?_
  obtain ⟨g'', here, stored⟩ := Outcome.bind_eq_returned.mp returned
  cases stored
  exact kept g g' here

omit [Zero W] [One W] [Add W] [LT W] [DecidableLT W] [Inhabited D] [BEq D] [LT D] [DecidableLT D]
  [LE D] [DecidableLE D] in
theorem keeps_anyAsk (f : GraphEngine W D → Outcome StdException α) :
    Keeps True True (fun d => P d.graph) (askGraph f : Action W D α) :=
  keeps_askGraph fun _ _ _ => trivial

omit [Zero W] [One W] [Add W] [LT W] [DecidableLT W] [Inhabited D] [BEq D] [LT D] [DecidableLT D]
  [LE D] [DecidableLE D] in
theorem keeps_anyIndexNumbers {I : Dispatcher W D → Prop} (args : List Bytes) :
    Keeps True True I (indexNumbers lib env args : Action W D (D × Int)) := by
  unfold indexNumbers
  split
  · exact .bind keeps_anyNumber fun _ => .bind keeps_anyNumber fun _ => .pure _
  · exact .bind keeps_anyNumber fun _ => .bind keeps_anyNumber fun _ => .pure _

/-- The names of the commands that add or remove edges. -/
def editing : List Bytes := [str "GRAPH.DEL_NODE", str "GRAPH.ADD_EDGE", str "GRAPH.DEL_EDGE"]

/-- The call adds or removes edges. -/
def changesEdges : GraphEngine.Op W D → Bool
  | .removeNode _ => true
  | .addEdge _ _ _ _ => true
  | .removeEdge _ _ _ => true
  | _ => false

/-- A command on the graph keeps what the calls keep, of which those that change edges are made by the
commands for that only. -/
theorem keeps_graph_of (mem : b ∈ graphBranches lib env)
    (kept : ∀ g g' op, (changesEdges op = true → b.name ∈ editing) →
      GraphEngine.apply g op = Outcome.returned g' → P g → P g')
    (arena : ∀ (g : GraphEngine W D) arena, P g → P { g with queryArena := arena })
    (args : List Bytes) : Keeps True True (fun d => P d.graph) (b.body args) := by
  have call (op : GraphEngine.Op W D) (may : changesEdges op = true → b.name ∈ editing) :
      Keeps True True (fun d => P d.graph) (changeGraph fun g => g.apply op : Action W D Unit) :=
    keeps_changeGraph_of fun g g' => kept g g' op may
  have plain (op : GraphEngine.Op W D) (same : changesEdges op = false) :
      Keeps True True (fun d => P d.graph) (changeGraph fun g => g.apply op : Action W D Unit) :=
    call op fun edits => absurd (same.symm.trans edits) Bool.false_ne_true
  simp only [graphBranches, List.mem_cons, List.not_mem_nil, or_false] at mem
  obtain rfl | rfl | rfl | rfl | rfl | rfl | rfl | rfl | rfl | rfl | rfl | rfl | rfl | rfl | rfl |
    rfl | rfl | rfl | rfl | rfl | rfl := mem
  case _ =>
    exact .bind keeps_anyNumber fun id =>
      .bind (plain (.addNode id (arg args 2) (arg args 3)) rfl) fun _ => .pure _
  case _ =>
    exact .bind keeps_anyNumber fun id =>
      .bind (plain (.addNode id (arg args 2) _) rfl) fun _ => .pure _
  case _ =>
    exact .bind keeps_anyNumber fun id =>
      .bind (call (.removeNode id) fun _ => by simp [editing]) fun _ => .pure _
  case _ =>
    refine .bind keeps_anyNumber fun u => .bind keeps_anyNumber fun v => .bind ?_ fun w =>
      .bind (call (.addEdge u v (arg args 3) w) fun _ => by simp [editing]) fun _ => .pure _
    unfold weightArg
    split
    · exact keeps_anyNumber
    · exact .pure _
  case _ =>
    exact .bind keeps_anyNumber fun u => .bind keeps_anyNumber fun v =>
      .bind (call (.removeEdge u v (arg args 3)) fun _ => by simp [editing]) fun _ => .pure _
  case _ =>
    refine .bind keeps_anyNumber fun _ => .bind (keeps_anyAsk _) fun info => ?_
    cases info with
    | none => exact .pure _
    | some info => exact .bind (keeps_anyAsk _) fun _ => .pure _
  case _ => exact .bind keeps_anyNumber fun _ => .bind (keeps_anyAsk _) fun _ => .pure _
  case _ =>
    exact .bind keeps_anyNumber fun _ => .bind keeps_anyNumber fun _ =>
      .bind (keeps_anyAsk _) fun _ => .pure _
  case _ => exact .bind keeps_anyNumber fun _ => .bind (keeps_anyAsk _) fun _ => .pure _
  case _ => exact .bind keeps_anyNumber fun _ => .bind (keeps_anyAsk _) fun _ => .pure _
  case _ =>
    refine .bind (keeps_onGraph_of ?_) fun _ => .pure _
    intro g g' ids listed
    cases listed
    exact kept g _ (.nodesByLabel (arg args 1)) (fun edits => absurd edits Bool.false_ne_true) rfl
  case _ =>
    refine .bind keeps_anyNumber fun _ => .bind keeps_anyNumber fun _ =>
      .bind (plain .resetQueryArena rfl) fun _ =>
        .bind (keeps_onGraph_of ?_) fun path => ?_
    · intro g g' path searched
      obtain ⟨⟨a, path⟩, -, stored⟩ := Outcome.bind_eq_returned.mp searched
      cases stored
      exact arena g a
    · split <;> exact .pure _
  case _ =>
    refine .bind keeps_anyNumber fun _ => .bind keeps_anyNumber fun _ =>
      .bind (keeps_anyAsk _) fun path => ?_
    split <;> exact .pure _
  case _ =>
    exact .bind keeps_anyNumber fun _ => .bind keeps_anyNumber fun _ =>
      .bind (keeps_anyAsk _) fun _ => .pure _
  case _ => exact .bind keeps_anyNumber fun _ => .bind (keeps_anyAsk _) fun _ => .pure _
  case _ => exact .bind (keeps_anyAsk _) fun _ => .pure _
  case _ => exact .bind keeps_anyNumber fun _ => .bind (keeps_anyAsk _) fun _ => .pure _
  case _ => exact .bind (keeps_anyAsk _) fun _ => .pure _
  case _ =>
    exact .bind (keeps_anyIndexNumbers env lib args) fun n =>
      .bind (plain (.indexProperty (arg args 2) (arg args 3) n.1 n.2 env.coins) rfl)
        fun _ => .pure _
  case _ =>
    exact .bind keeps_anyNumber fun _ => .bind keeps_anyNumber fun _ =>
      .bind (keeps_anyAsk _) fun _ => .pure _
  case _ => exact .bind keeps_anyNumber fun _ => .bind (keeps_anyAsk _) fun _ => .pure _

theorem keeps_graph_ops (ops : OpsKeep P) (mem : b ∈ graphBranches lib env) (args : List Bytes) :
    Keeps True True (fun d => P d.graph) (b.body args) :=
  keeps_graph_of env lib mem (fun g g' op _ => ops.op g g' op) ops.arena args

/-! ### Whole commands -/

variable {Q : KVEngine → Prop} {d d' : Dispatcher W D} {args : List Bytes} {reply : Bytes}

/-- A command replaces at most the engine of its handler. -/
theorem dispatch_put (returned : dispatch lib env d args = Outcome.returned (d', reply)) :
    ∃ e, d' = (enginePart (handlerOf args)).put d e := by
  obtain ⟨q, here⟩ := within_answer env lib args
  unfold dispatch at returned
  unfold outcome at returned
  rw [here] at returned
  cases ran : q.run ((enginePart (handlerOf args)).get d) with
  | none =>
    rw [ran] at returned
    cases returned
  | some r =>
    obtain ⟨r, e⟩ := r
    rw [ran] at returned
    cases r with
    | error _ => cases returned
    | ok a =>
      cases returned
      exact ⟨e, rfl⟩

omit [Zero W] [One W] [Add W] [LT W] [DecidableLT W] [Inhabited D] [BEq D] [LT D] [DecidableLT D]
  [LE D] [DecidableLE D] in
theorem put_files (h : Handler) (d : Dispatcher W D) (e : Engine W D h) :
    ((enginePart h).put d e).disk = d.disk ∧ ((enginePart h).put d e).persistence = d.persistence := by
  cases h <;> exact ⟨rfl, rfl⟩

omit [Zero W] [One W] [Add W] [LT W] [DecidableLT W] [Inhabited D] [BEq D] [LT D] [DecidableLT D]
  [LE D] [DecidableLE D] in
theorem put_kv {h : Handler} (other : h ≠ .kv) (d : Dispatcher W D) (e : Engine W D h) :
    ((enginePart h).put d e).kv = d.kv := by
  cases h with
  | kv => exact absurd rfl other
  | graph => rfl
  | zset => rfl

omit [Zero W] [One W] [Add W] [LT W] [DecidableLT W] [Inhabited D] [BEq D] [LT D] [DecidableLT D]
  [LE D] [DecidableLE D] in
theorem put_graph {h : Handler} (other : h ≠ .graph) (d : Dispatcher W D) (e : Engine W D h) :
    ((enginePart h).put d e).graph = d.graph := by
  cases h with
  | kv => rfl
  | graph => exact absurd rfl other
  | zset => rfl

/-- No command changes the files or what is known of the snapshot. -/
theorem dispatch_files (returned : dispatch lib env d args = Outcome.returned (d', reply)) :
    d'.disk = d.disk ∧ d'.persistence = d.persistence := by
  obtain ⟨e, rfl⟩ := dispatch_put env lib returned
  exact put_files _ d e

theorem dispatch_keeps_kv (calls : CallsKeep Q)
    (returned : dispatch lib env d args = Outcome.returned (d', reply)) (holds : Q d.kv) :
    Q d'.kv := by
  by_cases route : handlerOf args = .kv
  · cases args with
    | nil =>
      cases returned
      exact holds
    | cons word words =>
      unfold dispatch at returned
      rw [answer_routed, show Handler.ofCommand (toUpper word) = .kv from route] at returned
      simp only [handledBy, handleKv] at returned
      cases selected : Branch.select (kvBranches env) (toUpper word) (word :: words) with
      | none =>
        rw [selected] at returned
        cases returned
        exact holds
      | some body =>
        rw [selected] at returned
        obtain ⟨b, mem, -, -, rfl⟩ := Branch.select_eq_some selected
        exact (keeps_kv_calls env calls mem (word :: words)).outcome holds returned
  · obtain ⟨e, rfl⟩ := dispatch_put env lib returned
    rwa [put_kv route]

theorem dispatch_keeps_graph (ops : OpsKeep P)
    (returned : dispatch lib env d args = Outcome.returned (d', reply)) (holds : P d.graph) :
    P d'.graph := by
  by_cases route : handlerOf args = .graph
  · cases args with
    | nil => cases route
    | cons word words =>
      unfold dispatch at returned
      rw [answer_routed, show Handler.ofCommand (toUpper word) = .graph from route] at returned
      simp only [handledBy, handleGraph] at returned
      cases selected : Branch.select (graphBranches lib env) (toUpper word) (word :: words) with
      | none =>
        rw [selected] at returned
        cases returned
        exact holds
      | some body =>
        rw [selected] at returned
        obtain ⟨b, mem, -, -, rfl⟩ := Branch.select_eq_some selected
        have kept : Keeps True True (fun d : Dispatcher W D => P d.graph)
            (tryCatch (b.body (word :: words)) badArgs) :=
          (keeps_graph_ops env lib ops mem (word :: words)).tryCatch fun _ => .pure _
        exact kept.outcome holds returned
  · obtain ⟨e, rfl⟩ := dispatch_put env lib returned
    rwa [put_graph route]

end

end FastGraph.Dispatcher
