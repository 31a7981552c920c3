import FastGraph.Graph.GraphEngine
import FastGraph.Kv.KvEngine
import FastGraph.Misc.Stdio

/-!
# Snapshots

`RDB` (`persistence/rdb.cpp`) writes the key-value store and the graph to a file and reads
them back. Words are little-endian, as on the machines the server runs on, and a weight is
the 32 bits of a `float`. The results of `fwrite` and `fclose` are ignored, and the reads
of the body do not look at whether they were short: a short read leaves the bytes it got in
the variable it reads into.
-/

namespace FastGraph

/-- A conversion to `uint32_t`. -/
def toUInt32 (i : Int) : Nat := (i % 2 ^ 32).toNat

namespace RDB

/-- `MAGIC` (`rdb.hpp:29`). -/
def magic : Nat := 0x464153544752FF00

/-- `VERSION` (`rdb.hpp:30`). -/
def version : Nat := 1

/-- `EOF_MARKER` (`rdb.hpp:31`). -/
def eofMarker : Nat := 0xFFFFFFFFFFFFFFFF

/-! ### Writing -/

/-- `write_u32` (`rdb.cpp:8-10`). -/
def writeU32 (f : OutFile) (v : Nat) : OutFile × Bool := fwrite f (leBytes 4 v)

/-- `write_u64` (`rdb.cpp:12-14`). -/
def writeU64 (f : OutFile) (v : Nat) : OutFile × Bool := fwrite f (leBytes 8 v)

/-- `write_f32` (`rdb.cpp:16-18`). -/
def writeF32 (f : OutFile) (bits : UInt32) : OutFile × Bool := fwrite f (leBytes 4 bits.toNat)

/-- `write_str` (`rdb.cpp:20-23`). -/
def writeStr (f : OutFile) (s : Bytes) : OutFile × Bool :=
  let len := s.length % 2 ^ 32
  match writeU32 f len with
  | (f, false) => (f, false)
  | (f, true) => if len = 0 then (f, true) else fwrite f (s.take len)

/-- One iteration of the loop over the entries (`rdb.cpp:58-63`). -/
def saveEntry (f : OutFile) (entry : Bytes × Bytes × Int) : OutFile :=
  let f := (writeStr f entry.1).1
  let f := (writeStr f entry.2.1).1
  (fwrite f (leBytes 8 (toSizeT entry.2.2))).1

/-- One iteration of the loop over the nodes (`rdb.cpp:68-72`). -/
def saveNode (f : OutFile) (node : Int × Bytes × Bytes) : OutFile :=
  let f := (writeU32 f (toUInt32 node.1)).1
  let f := (writeStr f node.2.1).1
  (writeStr f node.2.2).1

section
variable {W D : Type} (bits : W ≃ UInt32)

/-- One iteration of the loop over the edges (`rdb.cpp:77-82`). -/
def saveEdge (f : OutFile) (edge : Int × Edge W) : OutFile :=
  let f := (writeU32 f (toUInt32 edge.1)).1
  let f := (writeU32 f (toUInt32 edge.2.toId)).1
  let f := (writeStr f edge.2.relType).1
  (writeF32 f (bits edge.2.weight)).1

/-- What the calls of one `save` on the file system do. An `fclose` that fails leaves the given
number of bytes in the file. -/
structure SaveCalls where
  opened : Bool
  stores : List Nat
  closeFails : Option Nat
  renamed : Bool
  deriving DecidableEq, Repr

/-- Every byte is written and every call succeeds. -/
def SaveCalls.complete : SaveCalls := ⟨true, [], none, true⟩

/-- The bytes that are in the file after `fclose`. -/
def SaveCalls.closed (calls : SaveCalls) (f : OutFile) : Bytes :=
  match calls.closeFails with
  | none => f.contents
  | some n => f.contents.take n

/-- The first half of `save` (`rdb.cpp:51-63`). -/
def saveHead (f : OutFile) (entries : List (Bytes × Bytes × Int)) : OutFile :=
  let f := (writeU64 f magic).1
  let f := (writeU32 f version).1
  let f := (writeU64 f (entries.length % 2 ^ 64)).1
  entries.foldl saveEntry f

/-- The second half of `save` (`rdb.cpp:67-84`). -/
def saveTail (f : OutFile) (nodes : List (Int × Bytes × Bytes)) (edges : List (Int × Edge W)) :
    OutFile :=
  let f := (writeU64 f (nodes.length % 2 ^ 64)).1
  let f := nodes.foldl saveNode f
  let f := (writeU64 f (edges.length % 2 ^ 64)).1
  let f := edges.foldl (saveEdge bits) f
  (writeU64 f eofMarker).1

/-- `RDB::save` (`rdb.cpp:43-89`) at the clock reading `now`. Taking the label of a node that
has none throws, with the file left as it is. -/
def save (disk : Disk) (path : Bytes) (kv : KVEngine) (graph : GraphEngine W D) (now : Int)
    (nodeOrder edgeOrder : IterOrder) (calls : SaveCalls) : Disk × Except StdException Bool :=
  let tmp := path ++ str ".tmp"
  if !calls.opened then (disk, .ok false)
  else
    let f := saveHead (fopenWrite calls.stores) (kv.allEntries now)
    match graph.allNodes nodeOrder with
    | .error e => (disk.set tmp f.contents, .error e)
    | .ok nodes =>
      let f := saveTail bits f nodes (graph.allEdges edgeOrder)
      if calls.renamed then ((disk.erase tmp).set path (calls.closed f), .ok true)
      else (disk.set tmp (calls.closed f), .ok false)

end

/-! ### Reading -/

/-- `read_u32` (`rdb.cpp:25-27`) into a variable that is zero. -/
def readU32 (f : InFile) : Nat × Bool × InFile :=
  let (got, ok, f) := fread 4 f
  (leNat got, ok, f)

/-- `read_u64` (`rdb.cpp:28-30`) into a variable that is zero. -/
def readU64 (f : InFile) : Nat × Bool × InFile :=
  let (got, ok, f) := fread 8 f
  (leNat got, ok, f)

/-- `read_f32` (`rdb.cpp:31-33`) into a variable that holds the bits `init`. -/
def readF32 (init : UInt32) (f : InFile) : UInt32 × Bool × InFile :=
  let (got, ok, f) := fread 4 f
  (UInt32.ofNat (leNat (got ++ (leBytes 4 init.toNat).drop got.length)), ok, f)

/-- `read_str` (`rdb.cpp:34-39`) into an empty string. -/
def readStr (f : InFile) : Bytes × Bool × InFile :=
  match readU32 f with
  | (_, false, f) => ([], false, f)
  | (len, true, f) =>
    let (got, ok, f) := fread len f
    (got ++ List.replicate (len - got.length) 0, ok, f)

/-- The loop of `load` over the entries (`rdb.cpp:107-120`). -/
def loadEntries (now : Int) : Nat → InFile → KVEngine → Option (InFile × KVEngine)
  | 0, f, kv => some (f, kv)
  | todo + 1, f, kv => do
    let (key, _, f) := readStr f
    let (val, _, f) := readStr f
    let (raw, _, f) := readU64 f
    let expiresAt := toInt64 raw
    let ttlMs := if 0 < expiresAt then toInt64 (expiresAt - now) else -1
    if 0 < expiresAt ∧ ttlMs ≤ 0 then loadEntries now todo f kv
    else
      let (kv, _) ← kv.set key val ttlMs now
      loadEntries now todo f kv

section
variable {W D : Type} (bits : W ≃ UInt32)

/-- The loop of `load` over the nodes (`rdb.cpp:125-132`). -/
def loadNodes : Nat → InFile → GraphEngine W D → InFile × GraphEngine W D
  | 0, f, graph => (f, graph)
  | todo + 1, f, graph =>
    let (id, _, f) := readU32 f
    let (label, _, f) := readStr f
    let (props, _, f) := readStr f
    loadNodes todo f (graph.addNode (toInt32 id) label props)

/-- The bits of `1.0f`. -/
def oneBits : UInt32 := 0x3F800000

/-- The loop of `load` over the edges (`rdb.cpp:137-146`). -/
def loadEdges : Nat → InFile → GraphEngine W D → InFile × GraphEngine W D
  | 0, f, graph => (f, graph)
  | todo + 1, f, graph =>
    let (fromId, _, f) := readU32 f
    let (toId, _, f) := readU32 f
    let (rel, _, f) := readStr f
    let (weight, _, f) := readF32 oneBits f
    loadEdges todo f (graph.addEdge (toInt32 fromId) (toInt32 toId) rel (bits.symm weight))

/-- `RDB::load` (`rdb.cpp:93-151`) at the clock reading `now`. -/
def load (disk : Disk) (path : Bytes) (now : Int) (kv : KVEngine) (graph : GraphEngine W D) :
    Option (Bool × KVEngine × GraphEngine W D) :=
  match disk.find path with
  | none => some (false, kv, graph)
  | some f => do
    let (magic', ok, f) := readU64 f
    if !ok ∨ magic' ≠ magic then some (false, kv, graph)
    else
      let (ver, ok, f) := readU32 f
      if !ok ∨ ver ≠ version then some (false, kv, graph)
      else
        let (kvCount, _, f) := readU64 f
        let (f, kv) ← loadEntries now kvCount f kv
        let (nodeCount, _, f) := readU64 f
        let (f, graph) := loadNodes nodeCount f graph
        let (edgeCount, _, f) := readU64 f
        let (f, graph) := loadEdges bits edgeCount f graph
        let (eof, _, _) := readU64 f
        some (decide (eof = eofMarker), kv, graph)

end

end RDB

end FastGraph
