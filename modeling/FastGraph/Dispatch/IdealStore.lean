import FastGraph.Dispatch.Proofs.Routing
import FastGraph.Kv.Proofs.KvEngine
import FastGraph.SortedSet.Proofs.SortedSetEngine
import Mathlib.Data.Set.Card

/-!
# What the server is for

A store of three things: a map whose entries expire, a family of finite maps from members to
scores, of which the ranks are counted in `int`, and a graph. A command of the first two is read
as a request, the request is met by the maps themselves, and the answer is written down. The graph
commands are those of the engine, run on the graph alone.
-/

namespace FastGraph

/-- The contents of a server. -/
structure IdealStore (W D : Type) where
  kv : ExpiringMap Bytes Bytes
  graph : GraphEngine W D
  zsets : Bytes → UnorderedMap Bytes D

namespace IdealStore
open Dispatcher

/-- What a command asks for, with the reply that is made of the answer. -/
inductive Request (D : Type) where
  | say (reply : Bytes)
  | kv (call : KVEngine.Call) (reply : KVEngine.Reply → Bytes)
  | count (reply : Nat → Bytes)
  | zset (call : SortedSetEngine.Call D) (reply : SortedSetEngine.Reply D → Bytes)

variable {W D α : Type}

/-- A program on the store. -/
abbrev Action (W D α : Type) := Program (IdealStore W D) StdException α

/-- A store without contents. -/
def empty : IdealStore W D := ⟨.empty, .empty, fun _ => ∅⟩

/-! ### Replies -/

/-- The reply to a call of the map. -/
def kvReply : KVEngine.Reply → Bytes
  | .flag b => flag b
  | .value (some v) => RespEncoder.bulkString v
  | .value none => RespEncoder.nullBulk
  | .ms n => RespEncoder.integer n
  | .none => []

/-- The reply to `TTL`: whole seconds, rounded up. -/
def secondsReply : KVEngine.Reply → Bytes
  | .ms ms =>
    if ms = -2 then RespEncoder.integer (-2)
    else if ms = -1 then RespEncoder.integer (-1)
    else RespEncoder.integer (Int.tdiv (toInt64 (ms + 999)) 1000)
  | _ => []

/-- The reply to a call of the sorted sets, with the elements as `shown`. -/
def zsetReply (lib : FloatLib W D) (shown : D × Bytes → List Bytes) :
    SortedSetEngine.Reply D → Bytes
  | .int n => RespEncoder.integer n
  | .flag b => flag b
  | .score (some s) => RespEncoder.bulkString (lib.doubleToString s)
  | .score none => RespEncoder.nullBulk
  | .elements es => RespEncoder.array (es.flatMap shown)

/-! ### Requests -/

/-- The lifetime that the options of `SET` ask for, in milliseconds. -/
def lifetime : List Bytes → Int → Except StdException Int
  | opt :: val :: rest, ms => do
    let ms ←
      if toUpper opt = str "EX" then do
        let n ← readNumber .stoll (stoll val)
        pure (toInt64 (n * 1000))
      else if toUpper opt = str "PX" then readNumber .stoll (stoll val)
      else pure ms
    lifetime (val :: rest) ms
  | _, ms => pure ms

/-- What a command asks for, unless a number in it cannot be read. -/
abbrev Requests (D : Type) := List (Branch (Except StdException (Request D)))

/-- The commands on the map. -/
def kvRequests : Requests D :=
  [⟨str "PING", fun _ => true, fun args =>
      pure (.say (RespEncoder.simpleString (if 2 ≤ args.length then arg args 1 else str "PONG")))⟩,
    ⟨str "SET", (3 ≤ ·), fun args => do
      let ms ← lifetime (args.drop 3) (-1)
      pure (.kv (.set (arg args 1) (arg args 2) ms) fun _ => okReply)⟩,
    ⟨str "GET", (2 ≤ ·), fun args => pure (.kv (.get (arg args 1)) kvReply)⟩,
    ⟨str "DEL", (2 ≤ ·), fun args => pure (.kv (.del (arg args 1)) kvReply)⟩,
    ⟨str "EXISTS", (2 ≤ ·), fun args => pure (.kv (.existsKey (arg args 1)) kvReply)⟩,
    ⟨str "EXPIRE", (3 ≤ ·), fun args => do
      let n ← readNumber .stoll (stoll (arg args 2))
      pure (.kv (.expire (arg args 1) (toInt64 (n * 1000))) kvReply)⟩,
    ⟨str "PEXPIRE", (3 ≤ ·), fun args => do
      let n ← readNumber .stoll (stoll (arg args 2))
      pure (.kv (.expire (arg args 1) n) kvReply)⟩,
    ⟨str "TTL", (2 ≤ ·), fun args => pure (.kv (.ttl (arg args 1)) secondsReply)⟩,
    ⟨str "PTTL", (2 ≤ ·), fun args => pure (.kv (.ttl (arg args 1)) kvReply)⟩,
    ⟨str "PERSIST", (2 ≤ ·), fun args => pure (.kv (.persist (arg args 1)) kvReply)⟩,
    ⟨str "DBSIZE", fun _ => true, fun _ => pure (.count fun n => RespEncoder.integer n)⟩,
    ⟨str "COMMAND", fun _ => true, fun _ => pure (.say okReply)⟩]

section
variable (lib : FloatLib W D)

/-- An element of a sorted set with its score. -/
def withScore (e : D × Bytes) : List Bytes := [e.2, lib.doubleToString e.1]

/-- An element of a sorted set, with its score if the command asks for it. -/
def shownBy (args : List Bytes) (e : D × Bytes) : List Bytes :=
  e.2 :: (if 5 ≤ args.length ∧ toUpper (arg args 4) = str "WITHSCORES" then
    [lib.doubleToString e.1] else [])

/-- The commands on the sorted sets. -/
def zsetRequests : Requests D :=
  [⟨str "ZADD", (4 ≤ ·), fun args => do
      let score ← readNumber .stod (lib.stod (arg args 2))
      pure (.zset (.zadd (arg args 1) [] score (arg args 3)) (zsetReply lib (withScore lib)))⟩,
    ⟨str "ZREM", (3 ≤ ·), fun args =>
      pure (.zset (.zrem (arg args 1) (arg args 2)) (zsetReply lib (withScore lib)))⟩,
    ⟨str "ZSCORE", (3 ≤ ·), fun args =>
      pure (.zset (.zscore (arg args 1) (arg args 2)) (zsetReply lib (withScore lib)))⟩,
    ⟨str "ZRANGE", (4 ≤ ·), fun args => do
      let start ← readNumber .stoi (stoi (arg args 2))
      let stop ← readNumber .stoi (stoi (arg args 3))
      pure (.zset (.zrange (arg args 1) start stop) (zsetReply lib (shownBy lib args)))⟩,
    ⟨str "ZRANGEBYSCORE", (4 ≤ ·), fun args => do
      let low ← readNumber .stod (lib.stod (arg args 2))
      let high ← readNumber .stod (lib.stod (arg args 3))
      pure (.zset (.zrangebyscore (arg args 1) low high) (zsetReply lib (withScore lib)))⟩,
    ⟨str "ZCARD", (2 ≤ ·), fun args =>
      pure (.zset (.zcard (arg args 1)) (zsetReply lib (withScore lib)))⟩,
    ⟨str "ZRANK", (3 ≤ ·), fun args =>
      pure (.zset (.zrank (arg args 1) (arg args 2)) (zsetReply lib (withScore lib)))⟩]

end

/-! ### The store -/

section
variable [LinearOrder D]

/-- A request is met. -/
noncomputable def serve (now : Int) : Request D → Action W D Bytes
  | .say reply => pure reply
  | .kv c reply => Program.call fun A =>
    Outcome.returned ({ A with kv := (KVEngine.idealCall A.kv now c).1 },
      reply (KVEngine.idealCall A.kv now c).2)
  | .count reply => Program.ask fun A => Outcome.returned (reply {k | A.kv.value k ≠ none}.ncard)
  | .zset c reply => Program.call fun A =>
    Outcome.returned ({ A with zsets := (SortedSetEngine.intCall A.zsets c).1 },
      reply (SortedSetEngine.intCall A.zsets c).2)

/-- What a command asks for is done, unless a number in it cannot be read. -/
noncomputable def perform (now : Int) : Except StdException (Request D) → Action W D Bytes
  | .ok request => serve now request
  | .error e => throw e

end

/-- A server that has only a graph. -/
def graphServer (g : GraphEngine W D) : Dispatcher W D := ⟨.empty, g, .empty, ⟨[], false⟩, ∅⟩

/-- A program of the dispatcher, run on the graph alone. -/
def onGraphAlone (p : Dispatcher.Action W D α) : Action W D α :=
  Program.ofRun fun A => (p.run (graphServer A.graph)).map fun r =>
    (r.1, { A with graph := r.2.graph })

section
variable [Zero W] [One W] [Add W] [LT W] [DecidableLT W] [Inhabited D] [LinearOrder D]
variable (lib : FloatLib W D) (env : Env)

/-- A command in its handler. -/
noncomputable def handle (cmd : Bytes) (args : List Bytes) : Handler → Action W D Bytes
  | .kv =>
    match Branch.select kvRequests cmd args with
    | some request => perform env.now request
    | none => pure (unknownCommand args)
  | .zset =>
    match Branch.select (zsetRequests lib) cmd args with
    | some request => tryCatch (perform env.now request) fun e =>
      pure (RespEncoder.error (str "bad args: " ++ e.what))
    | none => pure (unknownCommand args)
  | .graph => onGraphAlone (handleGraph lib env cmd args)

/-- The answer to a command. -/
noncomputable def answer (args : List Bytes) : Action W D Bytes :=
  match args with
  | [] => pure (RespEncoder.error (str "empty command"))
  | word :: _ => handle lib env (toUpper word) args (Handler.ofCommand (toUpper word))

/-- A command, as the caller sees it. -/
noncomputable def dispatch (A : IdealStore W D) (args : List Bytes) :
    Outcome StdException (IdealStore W D × Bytes) :=
  (answer lib env args).outcome A

end

end IdealStore

end FastGraph
