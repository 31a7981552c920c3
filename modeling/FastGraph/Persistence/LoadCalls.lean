import FastGraph.Persistence.Rdb

/-!
# The calls of a load

`RDB::load` (`persistence/rdb.cpp`) does not look at what the engines hold. `loadCalls` is `load` with
the calls on the engines written down in place of being made. The clock is read anew for every
entry with a deadline: `clock i` is the reading for the `i`-th one.
-/

namespace FastGraph.RDB

/-- A call that `load` makes on one of the engines. -/
inductive EngineCall (W : Type) where
  | set (key val : Bytes) (ttlMs : Int)
  | addNode (id : Int) (label props : Bytes)
  | addEdge (fromId toId : Int) (relType : Bytes) (weight : W)
  deriving DecidableEq, Repr

/-- The call at the clock reading `now`. -/
def runCall {W D : Type} (now : Int) (engines : KVEngine × GraphEngine W D) :
    EngineCall W → Option (KVEngine × GraphEngine W D)
  | .set key val ttlMs => (engines.1.set key val ttlMs now).map fun set => (set.1, engines.2)
  | .addNode id label props => some (engines.1, engines.2.addNode id label props)
  | .addEdge fromId toId relType weight =>
    some (engines.1, engines.2.addEdge fromId toId relType weight)

/-- The loop over the entries (`rdb.cpp:107-120`) from the `i`-th one on. -/
def entryCalls {W : Type} (clock : Nat → Int) : Nat → Nat → InFile → List (EngineCall W) × InFile
  | 0, _, f => ([], f)
  | todo + 1, i, f =>
    let (key, _, f) := readStr f
    let (val, _, f) := readStr f
    let (raw, _, f) := readU64 f
    let expiresAt := toInt64 raw
    let ttlMs := if 0 < expiresAt then toInt64 (expiresAt - clock i) else -1
    let (calls, f) := entryCalls clock todo (i + 1) f
    if 0 < expiresAt ∧ ttlMs ≤ 0 then (calls, f) else (.set key val ttlMs :: calls, f)

/-- The loop over the nodes (`rdb.cpp:125-132`). -/
def nodeCalls {W : Type} : Nat → InFile → List (EngineCall W) × InFile
  | 0, f => ([], f)
  | todo + 1, f =>
    let (id, _, f) := readU32 f
    let (label, _, f) := readStr f
    let (props, _, f) := readStr f
    let (calls, f) := nodeCalls todo f
    (.addNode (toInt32 id) label props :: calls, f)

section
variable {W : Type} (bits : W ≃ UInt32)

/-- The loop over the edges (`rdb.cpp:137-146`). -/
def edgeCalls : Nat → InFile → List (EngineCall W) × InFile
  | 0, f => ([], f)
  | todo + 1, f =>
    let (fromId, _, f) := readU32 f
    let (toId, _, f) := readU32 f
    let (rel, _, f) := readStr f
    let (weight, _, f) := readF32 oneBits f
    let (calls, f) := edgeCalls todo f
    (.addEdge (toInt32 fromId) (toInt32 toId) rel (bits.symm weight) :: calls, f)

/-- What `load` returns for a file that is there, and the calls it makes (`rdb.cpp:99-150`). -/
def loadCalls (clock : Nat → Int) (f : InFile) : Bool × List (EngineCall W) :=
  let (magic', ok, f) := readU64 f
  if !ok ∨ magic' ≠ magic then (false, [])
  else
    let (ver, ok, f) := readU32 f
    if !ok ∨ ver ≠ version then (false, [])
    else
      let (kvCount, _, f) := readU64 f
      let (sets, f) := entryCalls clock kvCount 0 f
      let (nodeCount, _, f) := readU64 f
      let (nodes, f) := nodeCalls nodeCount f
      let (edgeCount, _, f) := readU64 f
      let (edges, f) := edgeCalls bits edgeCount f
      let (eof, _, _) := readU64 f
      (decide (eof = eofMarker), sets ++ (nodes ++ edges))

end

end FastGraph.RDB
