import FastGraph.Graph.Bfs
import FastGraph.Graph.Dfs
import FastGraph.Graph.Dijkstra
import FastGraph.Misc.Program
import FastGraph.Persistence.Persistence
import FastGraph.Protocol.Encoder
import FastGraph.SortedSet.SortedSetEngine

/-!
# The dispatcher

`Dispatcher` (`dispatch/dispatcher.cpp`): the commands of the three handlers. A handler is a
list of branches, each with the test of its `if` and its body. Reading or printing a `float`
or a `double` is left to the standard library, and an index outside an array or a search that
runs out of iterations ends the program without a reply.
-/

namespace FastGraph

/-- The functions of the standard library on `float` and `double`, and the bits of a
`float`. -/
structure FloatLib (W D : Type) where
  stof : Bytes → Except NumError W
  stod : Bytes → Except NumError D
  floatToString : W → Bytes
  doubleToString : D → Bytes
  bits : W ≃ UInt32

/-- What one call of `dispatch` meets: a reading of the clock, the coins of a skip list, the
orders of its loops over hash maps, whether the last argument of a call is evaluated first,
what the file system and `fork` do, and the iterations that a search may take. -/
structure Env where
  now : Int
  coins : List Bool
  order : IterOrder
  edgeOrder : IterOrder
  lastFirst : Bool
  saveCalls : RDB.SaveCalls
  forked : Bool
  fuel : Nat

/-- `class Dispatcher` (`dispatcher.hpp:9-29`): what its references point to, and the disk. -/
structure Dispatcher (W D : Type) where
  kv : KVEngine
  graph : GraphEngine W D
  zsets : SortedSetEngine D
  persistence : Persistence
  disk : Disk

/-- `toupper` in the C locale. -/
def toUpperByte (b : UInt8) : UInt8 := if 97 ≤ b.toNat ∧ b.toNat ≤ 122 then b - 32 else b

/-- `to_upper` (`dispatcher.cpp:10-13`). -/
def toUpper (s : Bytes) : Bytes := s.map toUpperByte

/-- `args[i]`. -/
def arg (args : List Bytes) (i : Nat) : Bytes := args.getD i []

/-- One `if` of a handler: the command, the test of `args.size()` and the body. -/
structure Branch (α : Type) where
  name : Bytes
  enough : Nat → Bool
  body : List Bytes → α

/-- The first branch whose test holds. -/
def Branch.select {α : Type} (bs : List (Branch α)) (cmd : Bytes) (args : List Bytes) : Option α :=
  (bs.find? fun b => decide (cmd = b.name) && b.enough args.length).map fun b => b.body args

namespace Dispatcher
variable {W D α : Type}

/-- A program on the dispatcher. -/
abbrev Action (W D α : Type) := Program (Dispatcher W D) StdException α

/-- A call of a number reader. -/
def number (reader : NumReader) (x : Except NumError α) : Action W D α :=
  Program.ask fun _ => Outcome.ofExcept (readNumber reader x)

/-- `std::stoi(args[i])`. -/
def intArg (args : List Bytes) (i : Nat) : Action W D Int := number .stoi (stoi (arg args i))

/-- A call of the key-value engine. -/
def onKv (f : KVEngine → Option (KVEngine × α)) : Action W D α :=
  Program.call fun d => do
    let (kv, a) ← Outcome.ofOption (f d.kv)
    pure ({ d with kv := kv }, a)

/-- A call of the graph engine. -/
def onGraph (f : GraphEngine W D → Outcome StdException (GraphEngine W D × α)) : Action W D α :=
  Program.call fun d => do
    let (graph, a) ← f d.graph
    pure ({ d with graph := graph }, a)

/-- A change of the graph engine. -/
def changeGraph (f : GraphEngine W D → Outcome StdException (GraphEngine W D)) : Action W D Unit :=
  onGraph fun g => do
    let g ← f g
    pure (g, ())

/-- A call that leaves the graph engine as it is. -/
def askGraph (f : GraphEngine W D → Outcome StdException α) : Action W D α :=
  Program.ask fun d => f d.graph

/-- A call of the sorted sets. -/
def onZsets (f : SortedSetEngine D → Option (SortedSetEngine D × α)) : Action W D α :=
  Program.call fun d => do
    let (zsets, a) ← Outcome.ofOption (f d.zsets)
    pure ({ d with zsets := zsets }, a)

/-- A call that leaves the sorted sets as they are. -/
def askZsets (f : SortedSetEngine D → Option α) : Action W D α :=
  Program.ask fun d => Outcome.ofOption (f d.zsets)

/-- The reply `1` or `0`. -/
def flag (b : Bool) : Bytes := RespEncoder.integer (if b then 1 else 0)

/-- The reply `OK`. -/
def okReply : Bytes := RespEncoder.simpleString (str "OK")

/-! ### `handle_kv` -/

section
variable (env : Env)

/-- One iteration of the loop of `SET` (`dispatcher.cpp:33-35`). -/
def setOption (opt val : Bytes) (ttlMs : Int) : Action W D Int :=
  if toUpper opt = str "EX" then do
    let n ← number .stoll (stoll val)
    pure (toInt64 (n * 1000))
  else if toUpper opt = str "PX" then number .stoll (stoll val)
  else pure ttlMs

/-- The loop of `SET` over its options (`dispatcher.cpp:32-36`), which looks at every word that
has one behind it. -/
def setOptions : List Bytes → Int → Action W D Int
  | opt :: val :: rest, ttlMs => do
    let ttlMs ← setOption opt val ttlMs
    setOptions (val :: rest) ttlMs
  | _, ttlMs => pure ttlMs

/-- `PING` (`dispatcher.cpp:26-28`). -/
def ping (args : List Bytes) : Action W D Bytes :=
  pure (RespEncoder.simpleString (if 2 ≤ args.length then arg args 1 else str "PONG"))

/-- `SET` (`dispatcher.cpp:31-38`). -/
def set (args : List Bytes) : Action W D Bytes := do
  let ttlMs ← setOptions (args.drop 3) (-1)
  let _ ← onKv fun kv => kv.set (arg args 1) (arg args 2) ttlMs env.now
  pure okReply

/-- `GET` (`dispatcher.cpp:42-43`). -/
def get (args : List Bytes) : Action W D Bytes := do
  let v ← onKv fun kv => kv.get (arg args 1) env.now
  pure (match v with
    | some v => RespEncoder.bulkString v
    | none => RespEncoder.nullBulk)

/-- `DEL` (`dispatcher.cpp:47`). -/
def del (args : List Bytes) : Action W D Bytes := do
  let deleted ← onKv fun kv => kv.del (arg args 1)
  pure (flag deleted)

/-- `EXISTS` (`dispatcher.cpp:51`). -/
def existsKey (args : List Bytes) : Action W D Bytes := do
  let present ← onKv fun kv => kv.existsKey (arg args 1) env.now
  pure (flag present)

/-- `EXPIRE` (`dispatcher.cpp:55-56`). -/
def expire (args : List Bytes) : Action W D Bytes := do
  let n ← number .stoll (stoll (arg args 2))
  let ok ← onKv fun kv => kv.expire (arg args 1) (toInt64 (n * 1000)) env.now
  pure (flag ok)

/-- `PEXPIRE` (`dispatcher.cpp:60-61`). -/
def pexpire (args : List Bytes) : Action W D Bytes := do
  let n ← number .stoll (stoll (arg args 2))
  let ok ← onKv fun kv => kv.expire (arg args 1) n env.now
  pure (flag ok)

/-- `KVEngine::ttl` of the key that a command names. -/
def keyTtl (args : List Bytes) : Action W D Int :=
  onKv fun kv => (kv.ttl (arg args 1) env.now).map fun ms => (kv, ms)

/-- `TTL` (`dispatcher.cpp:65-68`). -/
def ttl (args : List Bytes) : Action W D Bytes := do
  let ms ← keyTtl env args
  if ms = -2 then pure (RespEncoder.integer (-2))
  else if ms = -1 then pure (RespEncoder.integer (-1))
  else pure (RespEncoder.integer (Int.tdiv (toInt64 (ms + 999)) 1000))

/-- `PTTL` (`dispatcher.cpp:72`). -/
def pttl (args : List Bytes) : Action W D Bytes := do
  let ms ← keyTtl env args
  pure (RespEncoder.integer ms)

/-- `PERSIST` (`dispatcher.cpp:76`). -/
def persist (args : List Bytes) : Action W D Bytes := do
  let done ← onKv fun kv => some (kv.persist (arg args 1))
  pure (flag done)

/-- `DBSIZE` (`dispatcher.cpp:80`). -/
def dbsize (_ : List Bytes) : Action W D Bytes := do
  let n ← onKv fun kv => some (kv, kv.size)
  pure (RespEncoder.integer n)

/-- `COMMAND` (`dispatcher.cpp:83`). -/
def command (_ : List Bytes) : Action W D Bytes := pure okReply

/-- The branches of `handle_kv`. -/
def kvBranches : List (Branch (Action W D Bytes)) :=
  [⟨str "PING", fun _ => true, ping⟩,
    ⟨str "SET", (3 ≤ ·), set env⟩,
    ⟨str "GET", (2 ≤ ·), get env⟩,
    ⟨str "DEL", (2 ≤ ·), del⟩,
    ⟨str "EXISTS", (2 ≤ ·), existsKey env⟩,
    ⟨str "EXPIRE", (3 ≤ ·), expire env⟩,
    ⟨str "PEXPIRE", (3 ≤ ·), pexpire env⟩,
    ⟨str "TTL", (2 ≤ ·), ttl env⟩,
    ⟨str "PTTL", (2 ≤ ·), pttl env⟩,
    ⟨str "PERSIST", (2 ≤ ·), persist⟩,
    ⟨str "DBSIZE", fun _ => true, dbsize⟩,
    ⟨str "COMMAND", fun _ => true, command⟩]

/-- What `handle_kv` and `handle_zset` answer where no branch is taken. -/
def unknownCommand (args : List Bytes) : Bytes :=
  RespEncoder.error (str "unknown command '" ++ arg args 0 ++ str "'")

/-- `Dispatcher::handle_kv` (`dispatcher.cpp:24-86`). -/
def handleKv (cmd : Bytes) (args : List Bytes) : Action W D Bytes :=
  (Branch.select (kvBranches env) cmd args).getD (pure (unknownCommand args))

end

/-! ### `handle_graph` -/

/-- `catch (const std::exception& e)` of the other handlers (`dispatcher.cpp:294-296`,
`:378-380`). -/
def badArgs (e : StdException) : Action W D Bytes :=
  pure (RespEncoder.error (str "bad args: " ++ e.what))

/-- An array of ids. -/
def idsReply (ids : List Int) : Bytes := RespEncoder.array (ids.map decimalInt)

/-- The relation filter that a path query may name. -/
def relArg (args : List Bytes) : Bytes := if 4 ≤ args.length then arg args 3 else []

section
variable (lib : FloatLib W D) (env : Env)

/-- `GRAPH.ADD_NODE` with properties (`dispatcher.cpp:95-97`). -/
def addNode (args : List Bytes) : Action W D Bytes := do
  let id ← intArg args 1
  changeGraph fun g => pure (g.addNode id (arg args 2) (arg args 3))
  pure okReply

/-- `GRAPH.ADD_NODE` without properties (`dispatcher.cpp:102-104`). -/
def addBareNode (args : List Bytes) : Action W D Bytes := do
  let id ← intArg args 1
  changeGraph fun g => pure (g.addNode id (arg args 2) (str "\x7b\x7d"))
  pure okReply

/-- The weight of `GRAPH.ADD_EDGE` (`dispatcher.cpp:117`). -/
def weightArg [One W] (args : List Bytes) : Action W D W :=
  if 5 ≤ args.length then number .stof (lib.stof (arg args 4)) else pure 1

/-- `GRAPH.ADD_EDGE` (`dispatcher.cpp:115-119`). -/
def addEdge [One W] (args : List Bytes) : Action W D Bytes := do
  let fromId ← intArg args 1
  let toId ← intArg args 2
  let weight ← weightArg lib args
  changeGraph fun g => pure (g.addEdge fromId toId (arg args 3) weight)
  pure okReply

/-- `GRAPH.DEL_EDGE` (`dispatcher.cpp:124-126`). -/
def delEdge (args : List Bytes) : Action W D Bytes := do
  let fromId ← intArg args 1
  let toId ← intArg args 2
  changeGraph fun g => pure (g.removeEdge fromId toId (arg args 3))
  pure okReply

/-- `GRAPH.NODE` (`dispatcher.cpp:131-135`). -/
def node (args : List Bytes) : Action W D Bytes := do
  let id ← intArg args 1
  let info ← askGraph fun g => pure (g.graph.nodeMeta id)
  match info with
  | none => pure RespEncoder.nullBulk
  | some info =>
    let label ← askGraph fun g => Outcome.ofExcept (g.labelString info.labelPtr)
    pure (RespEncoder.array [str "label", label, str "props", info.props])

/-- `GRAPH.HAS_NODE` (`dispatcher.cpp:140-141`). -/
def hasNode (args : List Bytes) : Action W D Bytes := do
  let id ← intArg args 1
  let present ← askGraph fun g => pure (g.graph.hasNode id)
  pure (flag present)

/-- `GRAPH.HAS_EDGE` (`dispatcher.cpp:146-148`). -/
def hasEdge (args : List Bytes) : Action W D Bytes := do
  let fromId ← intArg args 1
  let toId ← intArg args 2
  let present ← askGraph fun g => pure (g.graph.hasEdge fromId toId)
  pure (flag present)

/-- `GRAPH.NEIGHBORS` (`dispatcher.cpp:153-160`). -/
def neighbors (args : List Bytes) : Action W D Bytes := do
  let id ← intArg args 1
  let edges ← askGraph fun g => pure (g.graph.neighbors id)
  pure (RespEncoder.array
    (edges.flatMap fun e => [decimalInt e.toId, e.relType, lib.floatToString e.weight]))

/-- `GRAPH.REVNEIGHBORS` (`dispatcher.cpp:165-171`). -/
def revNeighbors (args : List Bytes) : Action W D Bytes := do
  let id ← intArg args 1
  let edges ← askGraph fun g => pure (g.graph.reverseNeighbors id)
  pure (RespEncoder.array (edges.flatMap fun e => [decimalInt e.toId, e.relType]))

/-- `GRAPH.LABEL_NODES` (`dispatcher.cpp:176-179`). -/
def labelNodes (args : List Bytes) : Action W D Bytes := do
  let ids ← onGraph fun g => pure (g.nodesByLabel env.order (arg args 1))
  pure (idsReply ids)

/-- A search in arrays of the arena: an index outside them is undefined behaviour. -/
def withinArrays {α : Type} (x : Outcome OutOfBounds α) : Outcome StdException α :=
  match x with
  | some (.ok a) => Outcome.returned a
  | _ => Outcome.stuck

/-- `GRAPH.PATH` (`dispatcher.cpp:184-194`). -/
def path (args : List Bytes) : Action W D Bytes := do
  let src ← intArg args 1
  let dst ← intArg args 2
  changeGraph fun g => pure g.resetQueryArena
  let path ← onGraph fun g => do
    let (arena, path) ←
      withinArrays (bfsPath env.fuel g.graph src dst (relArg args) g.queryArena)
    pure ({ g with queryArena := arena }, path)
  if path.empty then pure RespEncoder.nullBulk
  else pure (idsReply path.nodes)

section
variable [Zero W] [Add W] [LT W] [DecidableLT W]

/-- `GRAPH.WPATH` (`dispatcher.cpp:199-211`). -/
def wpath (args : List Bytes) : Action W D Bytes := do
  let src ← intArg args 1
  let dst ← intArg args 2
  let path ← askGraph fun g =>
    Outcome.ofOption (dijkstraPath env.fuel g.graph src dst (relArg args))
  if path.nodes = [] then pure RespEncoder.nullBulk
  else pure (RespEncoder.array
    ([str "cost", lib.floatToString path.cost, str "path"] ++ path.nodes.map decimalInt ++
      [str "rels"] ++ path.rels))

/-- `GRAPH.DISTANCES` (`dispatcher.cpp:249-256`). -/
def distances (args : List Bytes) : Action W D Bytes := do
  let src ← intArg args 1
  let dmap ← askGraph fun g => Outcome.ofOption (dijkstraAll env.fuel g.graph src)
  pure (RespEncoder.array
    ((env.order.permute dmap.dist.toList).flatMap fun e =>
      [decimalInt e.1, lib.floatToString e.2]))

end

/-- `GRAPH.NEIGHBORHOOD` (`dispatcher.cpp:216-228`). -/
def neighborhood (args : List Bytes) : Action W D Bytes := do
  let src ← intArg args 1
  let hops ← intArg args 2
  let results ← askGraph fun g =>
    Outcome.ofOption (bfsNeighborhood env.fuel g.graph src hops (relArg args))
  pure (RespEncoder.array
    (results.flatMap fun r => [decimalInt r.node, decimalInt r.hop, decimalInt r.via, r.relType]))

/-- `GRAPH.COMPONENT` (`dispatcher.cpp:233-237`). -/
def component (args : List Bytes) : Action W D Bytes := do
  let src ← intArg args 1
  let ids ← askGraph fun g => Outcome.ofOption (bfsComponent env.fuel g.graph src)
  pure (idsReply ids)

/-- `GRAPH.HAS_CYCLE` (`dispatcher.cpp:242-244`). -/
def hasCycle (_ : List Bytes) : Action W D Bytes := do
  let cycle ← askGraph fun g => Outcome.ofOption (dfsHasCycle env.fuel g.graph env.order)
  pure (flag cycle)

/-- `GRAPH.INFO` (`dispatcher.cpp:261-265`). -/
def info (_ : List Bytes) : Action W D Bytes := do
  let counts ← askGraph fun g => pure ((toInt32 g.graph.nodeCount, g.graph.edgeCount) : Int × Int)
  pure (RespEncoder.array
    [str "nodes", decimalInt counts.1, str "edges", decimalInt counts.2])

section
variable [Inhabited D] [BEq D] [LT D] [DecidableLT D]

/-- `GRAPH.DEL_NODE` (`dispatcher.cpp:109-110`). -/
def delNode (args : List Bytes) : Action W D Bytes := do
  let id ← intArg args 1
  changeGraph fun g => g.removeNode id
  pure okReply

/-- The numbers of `GRAPH.INDEX_PROP`, which are arguments of one call (`dispatcher.cpp:270-272`). -/
def indexNumbers (args : List Bytes) : Action W D (D × Int) :=
  if env.lastFirst then do
    let id ← intArg args 1
    let value ← number .stod (lib.stod (arg args 4))
    pure (value, id)
  else do
    let value ← number .stod (lib.stod (arg args 4))
    let id ← intArg args 1
    pure (value, id)

/-- `GRAPH.INDEX_PROP` (`dispatcher.cpp:270-273`). -/
def indexProp (args : List Bytes) : Action W D Bytes := do
  let numbers ← indexNumbers lib env args
  changeGraph fun g =>
    Outcome.ofOption (g.indexProperty (arg args 2) (arg args 3) numbers.1 numbers.2 env.coins)
  pure okReply

end

section
variable [LT D] [DecidableLT D] [LE D] [DecidableLE D]

/-- `GRAPH.RANGE` (`dispatcher.cpp:278-283`). -/
def range (args : List Bytes) : Action W D Bytes := do
  let low ← number .stod (lib.stod (arg args 3))
  let high ← number .stod (lib.stod (arg args 4))
  let ids ← askGraph fun g => g.rangeQuery (arg args 1) (arg args 2) low high
  pure (idsReply ids)

/-- `GRAPH.EXACT` (`dispatcher.cpp:288-291`). -/
def exact (args : List Bytes) : Action W D Bytes := do
  let value ← number .stod (lib.stod (arg args 3))
  let ids ← askGraph fun g => g.exactQuery (arg args 1) (arg args 2) value
  pure (idsReply ids)

end

section
variable [Zero W] [One W] [Add W] [LT W] [DecidableLT W]
variable [Inhabited D] [BEq D] [LT D] [DecidableLT D] [LE D] [DecidableLE D]

/-- The branches of `handle_graph`. -/
def graphBranches : List (Branch (Action W D Bytes)) :=
  [⟨str "GRAPH.ADD_NODE", (4 ≤ ·), addNode⟩,
    ⟨str "GRAPH.ADD_NODE", (3 == ·), addBareNode⟩,
    ⟨str "GRAPH.DEL_NODE", (2 ≤ ·), delNode⟩,
    ⟨str "GRAPH.ADD_EDGE", (4 ≤ ·), addEdge lib⟩,
    ⟨str "GRAPH.DEL_EDGE", (4 ≤ ·), delEdge⟩,
    ⟨str "GRAPH.NODE", (2 ≤ ·), node⟩,
    ⟨str "GRAPH.HAS_NODE", (2 ≤ ·), hasNode⟩,
    ⟨str "GRAPH.HAS_EDGE", (3 ≤ ·), hasEdge⟩,
    ⟨str "GRAPH.NEIGHBORS", (2 ≤ ·), neighbors lib⟩,
    ⟨str "GRAPH.REVNEIGHBORS", (2 ≤ ·), revNeighbors⟩,
    ⟨str "GRAPH.LABEL_NODES", (2 ≤ ·), labelNodes env⟩,
    ⟨str "GRAPH.PATH", (3 ≤ ·), path env⟩,
    ⟨str "GRAPH.WPATH", (3 ≤ ·), wpath lib env⟩,
    ⟨str "GRAPH.NEIGHBORHOOD", (3 ≤ ·), neighborhood env⟩,
    ⟨str "GRAPH.COMPONENT", (2 ≤ ·), component env⟩,
    ⟨str "GRAPH.HAS_CYCLE", fun _ => true, hasCycle env⟩,
    ⟨str "GRAPH.DISTANCES", (2 ≤ ·), distances lib env⟩,
    ⟨str "GRAPH.INFO", fun _ => true, info⟩,
    ⟨str "GRAPH.INDEX_PROP", (5 ≤ ·), indexProp lib env⟩,
    ⟨str "GRAPH.RANGE", (5 ≤ ·), range lib⟩,
    ⟨str "GRAPH.EXACT", (4 ≤ ·), exact lib⟩]

/-- `Dispatcher::handle_graph` (`dispatcher.cpp:89-299`). -/
def handleGraph (cmd : Bytes) (args : List Bytes) : Action W D Bytes :=
  match Branch.select (graphBranches lib env) cmd args with
  | some body => tryCatch body badArgs
  | none => pure (RespEncoder.error (str "unknown graph command '" ++ arg args 0 ++ str "'"))

end

end

/-! ### `handle_zset` -/

section
variable (lib : FloatLib W D) (env : Env)

/-- `ZSCORE` (`dispatcher.cpp:318-320`). -/
def zscore (args : List Bytes) : Action W D Bytes := do
  let sc ← askZsets fun z => some (z.zscore (arg args 1) (arg args 2))
  pure (match sc with
    | some sc => RespEncoder.bulkString (lib.doubleToString sc)
    | none => RespEncoder.nullBulk)

/-- `ZRANGE` (`dispatcher.cpp:325-335`). -/
def zrange (args : List Bytes) : Action W D Bytes := do
  let withScores := 5 ≤ args.length ∧ toUpper (arg args 4) = str "WITHSCORES"
  let start ← intArg args 2
  let stop ← intArg args 3
  let results ← askZsets fun z => z.zrange (arg args 1) start stop
  pure (RespEncoder.array
    (results.flatMap fun r => r.2 :: (if withScores then [lib.doubleToString r.1] else [])))

/-- `ZCARD` (`dispatcher.cpp:353`). -/
def zcard (args : List Bytes) : Action W D Bytes := do
  let n ← askZsets fun z => some (z.zcard (arg args 1))
  pure (RespEncoder.integer n)

section
variable [LT D] [DecidableLT D] [LE D] [DecidableLE D]

/-- `ZRANGEBYSCORE` (`dispatcher.cpp:340-348`). -/
def zrangebyscore (args : List Bytes) : Action W D Bytes := do
  let low ← number .stod (lib.stod (arg args 2))
  let high ← number .stod (lib.stod (arg args 3))
  let results ← askZsets fun z => z.zrangebyscore (arg args 1) low high
  pure (RespEncoder.array (results.flatMap fun r => [r.2, lib.doubleToString r.1]))

end

/-- `ZRANK` (`dispatcher.cpp:357-358`). -/
def zrank (args : List Bytes) : Action W D Bytes := do
  let rank ← askZsets fun z => z.zrank (arg args 1) (arg args 2)
  pure (RespEncoder.integer rank)

/-- `BGSAVE` (`dispatcher.cpp:360-361`). -/
def bgsave (_ : List Bytes) : Action W D Bytes := do
  Program.change fun d => { d with persistence := (d.persistence.bgsave env.forked).1 }
  pure (RespEncoder.simpleString (str "Background saving started"))

/-- `BGRESTORE` (`dispatcher.cpp:365-367`). -/
def bgrestore (_ : List Bytes) : Action W D Bytes := do
  let ok ← Program.call fun d => do
    let (ok, kv, graph) ←
      Outcome.ofOption (d.persistence.load lib.bits d.disk env.now d.kv d.graph)
    pure ({ d with kv := kv, graph := graph }, ok)
  pure (if ok then okReply else RespEncoder.error (str "no snapshot file found"))

/-- `SAVE` (`dispatcher.cpp:371-373`). -/
def save (_ : List Bytes) : Action W D Bytes := do
  let ok ← Program.ofRun fun d =>
    let (persistence, disk, ok) := d.persistence.save lib.bits d.disk d.kv d.graph env.now
      env.order env.edgeOrder env.saveCalls
    some (ok, { d with persistence := persistence, disk := disk })
  pure (if ok then okReply else RespEncoder.error (str "save failed"))

section
variable [Inhabited D] [BEq D] [LT D] [DecidableLT D]

/-- `ZADD` (`dispatcher.cpp:306-307`). -/
def zadd (args : List Bytes) : Action W D Bytes := do
  let score ← number .stod (lib.stod (arg args 2))
  let added ← onZsets fun z => z.zadd (arg args 1) env.coins score (arg args 3)
  pure (RespEncoder.integer added)

/-- `ZREM` (`dispatcher.cpp:312-313`). -/
def zrem (args : List Bytes) : Action W D Bytes := do
  let removed ← onZsets fun z => z.zrem (arg args 1) (arg args 2)
  pure (flag removed)

variable [LE D] [DecidableLE D]

/-- The branches of `handle_zset`. -/
def zsetBranches : List (Branch (Action W D Bytes)) :=
  [⟨str "ZADD", (4 ≤ ·), zadd lib env⟩,
    ⟨str "ZREM", (3 ≤ ·), zrem⟩,
    ⟨str "ZSCORE", (3 ≤ ·), zscore lib⟩,
    ⟨str "ZRANGE", (4 ≤ ·), zrange lib⟩,
    ⟨str "ZRANGEBYSCORE", (4 ≤ ·), zrangebyscore lib⟩,
    ⟨str "ZCARD", (2 ≤ ·), zcard⟩,
    ⟨str "ZRANK", (3 ≤ ·), zrank⟩,
    ⟨str "BGSAVE", fun _ => true, bgsave env⟩,
    ⟨str "BGRESTORE", fun _ => true, bgrestore lib env⟩,
    ⟨str "SAVE", fun _ => true, save lib env⟩]

/-- `Dispatcher::handle_zset` (`dispatcher.cpp:301-383`). -/
def handleZset (cmd : Bytes) (args : List Bytes) : Action W D Bytes :=
  match Branch.select (zsetBranches lib env) cmd args with
  | some body => tryCatch body badArgs
  | none => pure (unknownCommand args)

end

end

/-! ### `dispatch` -/

section
variable [Zero W] [One W] [Add W] [LT W] [DecidableLT W]
variable [Inhabited D] [BEq D] [LT D] [DecidableLT D] [LE D] [DecidableLE D]

/-- `Dispatcher::dispatch` as a program (`dispatcher.cpp:15-22`). -/
def answer (lib : FloatLib W D) (env : Env) (args : List Bytes) : Action W D Bytes :=
  match args with
  | [] => pure (RespEncoder.error (str "empty command"))
  | word :: _ =>
    let cmd := toUpper word
    if cmd.take 6 = str "GRAPH." then handleGraph lib env cmd args
    else if cmd.head? = some (charByte 'Z') then handleZset lib env cmd args
    else handleKv env cmd args

/-- `Dispatcher::dispatch`. -/
def dispatch (lib : FloatLib W D) (env : Env) (d : Dispatcher W D) (args : List Bytes) :
    Outcome StdException (Dispatcher W D × Bytes) :=
  (answer lib env args).outcome d

end

end Dispatcher

end FastGraph
