import FastGraph.Dispatch.Dispatcher
import FastGraph.Protocol.Proofs.Replies

/-!
# Which branch a command takes

The first bytes of a command choose a handler, and its name and the number of its words choose a
branch there. `BGSAVE`, `BGRESTORE` and `SAVE` are branches of the handler whose commands begin
with `Z`, where no command leads to them.
-/

namespace FastGraph

/-- The branch that is taken. -/
theorem Branch.select_eq_some {α : Type} {bs : List (Branch α)} {cmd : Bytes} {args : List Bytes}
    {body : α} (selected : select bs cmd args = some body) :
    ∃ b ∈ bs, cmd = b.name ∧ b.enough args.length = true ∧ body = b.body args := by
  obtain ⟨b, found, same⟩ := Option.map_eq_some_iff.mp selected
  have test := List.find?_some found
  rw [Bool.and_eq_true, decide_eq_true_eq] at test
  exact ⟨b, List.mem_of_find?_eq_some found, test.1, test.2, same.symm⟩

/-- No call takes both branches. -/
def Branch.Apart {α : Type} (b b' : Branch α) : Prop :=
  b.name ≠ b'.name ∨ ∀ n, b.enough n = true → b'.enough n = false

/-- A branch whose test holds is taken if no call takes two branches. -/
theorem Branch.select_of_mem {α : Type} {bs : List (Branch α)} {b : Branch α} {args : List Bytes}
    (apart : bs.Pairwise Apart) (mem : b ∈ bs) (enough : b.enough args.length = true) :
    select bs b.name args = some (b.body args) := by
  induction bs with
  | nil => cases mem
  | cons b' bs ih =>
    rw [List.pairwise_cons] at apart
    rcases List.mem_cons.mp mem with rfl | later
    · simp [select, enough]
    · have other : (decide (b.name = b'.name) && b'.enough args.length) = false := by
        rw [Bool.and_eq_false_iff, decide_eq_false_iff_not]
        rcases apart.1 b later with differ | disjoint
        · exact Or.inl (Ne.symm differ)
        · right
          by_contra both
          have excluded := disjoint _ (Bool.not_eq_false _ ▸ both)
          rw [enough] at excluded
          cases excluded
      have rest := ih apart.2 later
      unfold select at rest ⊢
      rw [List.find?_cons_of_neg (by simpa using other)]
      exact rest

namespace Dispatcher

/-- The handlers of the dispatcher. -/
inductive Handler where
  | kv
  | graph
  | zset
  deriving DecidableEq, Repr

namespace Handler

/-- The handler of a command. -/
def ofCommand (cmd : Bytes) : Handler :=
  if cmd.take 6 = str "GRAPH." then graph
  else if cmd.head? = some (charByte 'Z') then zset
  else kv

/-- The commands of a handler, one for each branch. -/
def names : Handler → List Bytes
  | kv => [str "PING", str "SET", str "GET", str "DEL", str "EXISTS", str "EXPIRE",
      str "PEXPIRE", str "TTL", str "PTTL", str "PERSIST", str "DBSIZE", str "COMMAND"]
  | graph => [str "GRAPH.ADD_NODE", str "GRAPH.ADD_NODE", str "GRAPH.DEL_NODE",
      str "GRAPH.ADD_EDGE", str "GRAPH.DEL_EDGE", str "GRAPH.NODE", str "GRAPH.HAS_NODE",
      str "GRAPH.HAS_EDGE", str "GRAPH.NEIGHBORS", str "GRAPH.REVNEIGHBORS",
      str "GRAPH.LABEL_NODES", str "GRAPH.PATH", str "GRAPH.WPATH", str "GRAPH.NEIGHBORHOOD",
      str "GRAPH.COMPONENT", str "GRAPH.HAS_CYCLE", str "GRAPH.DISTANCES", str "GRAPH.INFO",
      str "GRAPH.INDEX_PROP", str "GRAPH.RANGE", str "GRAPH.EXACT"]
  | zset => [str "ZADD", str "ZREM", str "ZSCORE", str "ZRANGE", str "ZRANGEBYSCORE",
      str "ZCARD", str "ZRANK", str "BGSAVE", str "BGRESTORE", str "SAVE"]

/-- The commands of `Persistence`. -/
def persistent : List Bytes := [str "BGSAVE", str "BGRESTORE", str "SAVE"]

/-- The commands of `Persistence` are those that do not lead to the handler that has their
branch. -/
theorem ofCommand_eq_iff {h : Handler} {name : Bytes} (mem : name ∈ h.names) :
    ofCommand name = h ↔ name ∉ persistent := by
  have kv : ∀ n ∈ Handler.kv.names, ofCommand n = .kv ↔ n ∉ persistent := by decide
  have graph : ∀ n ∈ Handler.graph.names, ofCommand n = .graph ↔ n ∉ persistent := by
    decide
  have zset : ∀ n ∈ Handler.zset.names, ofCommand n = .zset ↔ n ∉ persistent := by decide
  cases h with
  | kv => exact kv name mem
  | graph => exact graph name mem
  | zset => exact zset name mem

/-- The commands of `Persistence` lead to a handler that does not know them. -/
theorem not_mem_names_of_persistent {name : Bytes} (mem : name ∈ persistent) :
    name ∉ (ofCommand name).names := by
  have all : ∀ n ∈ persistent, n ∉ (ofCommand n).names := by decide
  exact all name mem

end Handler

section
variable {W D : Type} [Zero W] [One W] [Add W] [LT W] [DecidableLT W]
variable [Inhabited D] [BEq D] [LT D] [DecidableLT D] [LE D] [DecidableLE D]
variable (lib : FloatLib W D) (env : Env)

/-- The branches of a handler. -/
def branches : Handler → List (Branch (Action W D Bytes))
  | .kv => kvBranches env
  | .graph => graphBranches lib env
  | .zset => zsetBranches lib env

/-- A branch in its handler: two of them catch. -/
def enclosed : Handler → Action W D Bytes → Action W D Bytes
  | .kv, body => body
  | .graph, body => tryCatch body badArgs
  | .zset, body => tryCatch body badArgs

/-- What a handler answers where no branch is taken. -/
def unknown : Handler → List Bytes → Bytes
  | .kv, args => unknownCommand args
  | .graph, args => RespEncoder.error (str "unknown graph command '" ++ arg args 0 ++ str "'")
  | .zset, args => unknownCommand args

theorem names_branches (h : Handler) : (branches lib env h).map Branch.name = h.names := by
  cases h <;> rfl

theorem answer_cons (word : Bytes) (words : List Bytes) :
    answer lib env (word :: words) =
      match Branch.select (branches lib env (.ofCommand (toUpper word))) (toUpper word)
        (word :: words) with
      | some body => enclosed (.ofCommand (toUpper word)) body
      | none => pure (unknown (.ofCommand (toUpper word)) (word :: words)) := by
  have own (h : Handler) (cmd : Bytes) (args : List Bytes) :
      (match h with
        | .kv => handleKv env cmd args
        | .graph => handleGraph lib env cmd args
        | .zset => handleZset lib env cmd args) =
      match Branch.select (branches lib env h) cmd args with
      | some body => enclosed h body
      | none => pure (unknown h args) := by
    cases h with
    | kv =>
      simp only [handleKv, branches]
      cases Branch.select (kvBranches env) cmd args <;> rfl
    | graph =>
      simp only [handleGraph, branches]
      cases Branch.select (graphBranches lib env) cmd args <;> rfl
    | zset =>
      simp only [handleZset, branches]
      cases Branch.select (zsetBranches lib env) cmd args <;> rfl
  rw [← own]
  change (if (toUpper word).take 6 = str "GRAPH." then _ else _) = _
  unfold Handler.ofCommand
  split
  · rfl
  · split <;> rfl

/-- No call takes two branches of a handler. -/
theorem branches_apart (h : Handler) : (branches lib env h).Pairwise Branch.Apart := by
  -- Branches with different names are apart; only the two of `GRAPH.ADD_NODE` share theirs.
  have named {bs : List (Branch (Action W D Bytes))} (ns : List Bytes)
      (names : bs.map Branch.name = ns) (distinct : ns.Nodup) : bs.Pairwise Branch.Apart := by
    rw [← names] at distinct
    exact (List.pairwise_map.mp distinct).imp Or.inl
  cases h with
  | kv => exact named _ (names_branches lib env .kv) (by decide)
  | zset => exact named _ (names_branches lib env .zset) (by decide)
  | graph =>
    have names := names_branches lib env .graph
    have first : ((branches lib env .graph).eraseIdx 1).Pairwise Branch.Apart :=
      named (Handler.graph.names.eraseIdx 1) rfl (by decide)
    have second : ((branches lib env .graph).drop 1).Pairwise Branch.Apart :=
      named (Handler.graph.names.drop 1) rfl (by decide)
    refine List.pairwise_cons.mpr ⟨?_, second⟩
    intro b mem
    rcases List.mem_cons.mp mem with rfl | later
    · right
      intro n enough
      simp only [decide_eq_true_eq] at enough
      simp only [beq_eq_false_iff_ne]
      omega
    · exact (List.pairwise_cons.mp first).1 b later

variable {d : Dispatcher W D} {word : Bytes} {words : List Bytes}

/-- A call for which no branch is taken. -/
theorem dispatch_missed (missed : Branch.select (branches lib env (.ofCommand (toUpper word)))
      (toUpper word) (word :: words) = none) :
    dispatch lib env d (word :: words) =
      Outcome.returned (d, unknown (.ofCommand (toUpper word)) (word :: words)) := by
  unfold dispatch
  rw [answer_cons, missed]
  rfl

/-- A call that takes a branch runs it in its handler. -/
theorem answer_taken {h : Handler} {b : Branch (Action W D Bytes)} (mem : b ∈ branches lib env h)
    (own : b.name ∉ Handler.persistent) (named : toUpper word = b.name)
    (enough : b.enough (word :: words).length = true) :
    answer lib env (word :: words) = enclosed h (b.body (word :: words)) := by
  have listed : b.name ∈ h.names := by
    rw [← names_branches lib env]
    exact List.mem_map_of_mem mem
  have route : Handler.ofCommand b.name = h := (Handler.ofCommand_eq_iff listed).mpr own
  rw [answer_cons, named, route,
    Branch.select_of_mem (branches_apart lib env h) mem enough]

/-- The branch that is taken is none of those that no command leads to. -/
theorem taken_of_select {body : Action W D Bytes}
    (selected : Branch.select (branches lib env (.ofCommand (toUpper word))) (toUpper word)
      (word :: words) = some body) :
    ∃ b ∈ branches lib env (.ofCommand (toUpper word)), toUpper word = b.name ∧
      b.name ∉ Handler.persistent ∧ b.enough (word :: words).length = true := by
  obtain ⟨b, mem, named, enough, -⟩ := Branch.select_eq_some selected
  refine ⟨b, mem, named, ?_, enough⟩
  intro persistent
  apply Handler.not_mem_names_of_persistent persistent
  rw [← named, ← names_branches lib env, named]
  exact List.mem_map_of_mem (named ▸ mem)

end

/-! ### A dispatcher to run -/

/-- Numbers without a fraction, as the standard library reads and prints them. -/
def wholeLib : FloatLib UInt32 Int where
  stof := fun s => (stoi s).map fun i => UInt32.ofNat i.toNat
  stod := stoll
  floatToString := fun w => decimal w.toNat ++ str ".000000"
  doubleToString := fun i => decimalInt i ++ str ".000000"
  bits := Equiv.refl _

/-- Calls that meet nothing in their way. -/
def calmEnv : Env where
  now := 0
  coins := []
  order := .asListed
  edgeOrder := .asListed
  lastFirst := true
  saveCalls := .complete
  forked := true
  fuel := 100

/-- The dispatcher of a server that has just started. -/
def fresh : Dispatcher UInt32 Int := ⟨.empty, .empty, .empty, ⟨str "fastgraph.rdb", false⟩, ∅⟩

end Dispatcher

end FastGraph
