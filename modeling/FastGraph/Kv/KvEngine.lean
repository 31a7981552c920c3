import FastGraph.Kv.Hashmap
import FastGraph.Kv.Ttl

/-!
# The key-value engine

`KVEngine` (`kv/kv_engine.cpp`): the table of values and the heap of deadlines. The table is the
one in plain numbers, which answers as that of the source does within `2 ^ 32` slots. A call that
may read the clock takes the reading `now`. The calls return nothing where a probe loop of
the table would go round for ever.
-/

namespace FastGraph

/-- `class KVEngine` (`kv_engine.hpp:8-33`). -/
structure KVEngine where
  map : RobinHoodMap
  deadlines : TTLManager
  deriving DecidableEq

namespace KVEngine

/-- A default-constructed engine. -/
def empty : KVEngine := ⟨.empty, .empty⟩

/-- `KVEngine::set` (`kv_engine.cpp:3-10`). -/
def set (e : KVEngine) (key val : Bytes) (ttlMs now : Int) : Option (KVEngine × Bool) := do
  let (map, inserted) ← e.map.set key val
  if 0 < ttlMs then
    some ({ map := map, deadlines := e.deadlines.setExpiry key ttlMs now }, inserted)
  else
    some ({ map := map, deadlines := e.deadlines.removeExpiry key }, inserted)

/-- `KVEngine::get` (`kv_engine.cpp:12-23`). -/
def get (e : KVEngine) (key : Bytes) (now : Int) : Option (KVEngine × Option Bytes) := do
  let exp := e.deadlines.getExpiry key
  if 0 ≤ exp ∧ exp ≤ now then
    let (map, _) ← e.map.del key
    some ({ map := map, deadlines := e.deadlines.removeExpiry key }, none)
  else
    let v ← e.map.get key
    some (e, v)

/-- `KVEngine::del` (`kv_engine.cpp:25-28`). -/
def del (e : KVEngine) (key : Bytes) : Option (KVEngine × Bool) := do
  let (map, deleted) ← e.map.del key
  some ({ map := map, deadlines := e.deadlines.removeExpiry key }, deleted)

/-- `KVEngine::exists` (`kv_engine.cpp:30-32`). -/
def existsKey (e : KVEngine) (key : Bytes) (now : Int) : Option (KVEngine × Bool) := do
  let (e, v) ← e.get key now
  some (e, v.isSome)

/-- `KVEngine::expire` (`kv_engine.cpp:34-38`). -/
def expire (e : KVEngine) (key : Bytes) (ttlMs now : Int) : Option (KVEngine × Bool) := do
  match ← e.map.get key with
  | none => some (e, false)
  | some _ => some ({ e with deadlines := e.deadlines.setExpiry key ttlMs now }, true)

/-- `KVEngine::persist` (`kv_engine.cpp:40-44`). -/
def persist (e : KVEngine) (key : Bytes) : KVEngine × Bool :=
  if e.deadlines.getExpiry key < 0 then (e, false)
  else ({ e with deadlines := e.deadlines.removeExpiry key }, true)

/-- `KVEngine::ttl` (`kv_engine.cpp:46-52`). -/
def ttl (e : KVEngine) (key : Bytes) (now : Int) : Option Int := do
  match ← e.map.get key with
  | none => some (-2)
  | some _ =>
    let exp := e.deadlines.getExpiry key
    if exp < 0 then some (-1)
    else
      let remaining := exp - now
      some (if remaining < 0 then 0 else remaining)

/-- `map_.del` of every evicted key (`kv_engine.cpp:55-56`). -/
def dropAll : List Bytes → RobinHoodMap → Option RobinHoodMap
  | [], m => some m
  | key :: keys, m => do
    let (m, _) ← m.del key
    dropAll keys m

/-- `KVEngine::tick` (`kv_engine.cpp:54-57`). -/
def tick (e : KVEngine) (now : Int) : Option KVEngine := do
  let (deadlines, expired) := e.deadlines.evictExpired now
  let map ← dropAll expired e.map
  some { map := map, deadlines := deadlines }

/-- `KVEngine::size` (`kv_engine.hpp:20`). -/
def size (e : KVEngine) : Nat := e.map.size

/-- One iteration of the loop of `all_entries` (`kv_engine.cpp:62-68`): what it lists of the
slot `i`. -/
def listed (e : KVEngine) (now : Int) (i : Nat) : Option (Bytes × Bytes × Int) :=
  let entry := RobinHoodMap.slot e.map.entries i
  if entry.empty then none
  else
    let exp := e.deadlines.getExpiry entry.key
    if 0 ≤ exp ∧ exp ≤ now then none else some (entry.key, entry.val, exp)

/-- `KVEngine::all_entries` (`kv_engine.cpp:59-70`): key, value and deadline, by slot. -/
def allEntries (e : KVEngine) (now : Int) : List (Bytes × Bytes × Int) :=
  (List.range e.map.capacity).filterMap (e.listed now)

/-! ### Runs -/

/-- The calls of a client of the engine and of its timer. -/
inductive Call where
  | set (key val : Bytes) (ttlMs : Int)
  | get (key : Bytes)
  | del (key : Bytes)
  | existsKey (key : Bytes)
  | expire (key : Bytes) (ttlMs : Int)
  | persist (key : Bytes)
  | ttl (key : Bytes)
  | tick
  deriving DecidableEq, Repr

/-- What a call returns. -/
inductive Reply where
  | flag (b : Bool)
  | value (v : Option Bytes)
  | ms (n : Int)
  | none
  deriving DecidableEq, Repr

/-- One call at the clock reading `now`. -/
def call (e : KVEngine) (now : Int) : Call → Option (KVEngine × Reply)
  | .set key val ttlMs => do
    let (e, inserted) ← e.set key val ttlMs now
    some (e, .flag inserted)
  | .get key => do
    let (e, v) ← e.get key now
    some (e, .value v)
  | .del key => do
    let (e, deleted) ← e.del key
    some (e, .flag deleted)
  | .existsKey key => do
    let (e, present) ← e.existsKey key now
    some (e, .flag present)
  | .expire key ttlMs => do
    let (e, done) ← e.expire key ttlMs now
    some (e, .flag done)
  | .persist key => some ((e.persist key).1, .flag (e.persist key).2)
  | .ttl key => do
    let ms ← e.ttl key now
    some (e, .ms ms)
  | .tick => do
    let e ← e.tick now
    some (e, .none)

/-- A call with the reading of the clock it is made at. -/
structure Timed where
  now : Int
  call : Call
  deriving DecidableEq, Repr

/-- The engine after a sequence of calls. -/
def run : List Timed → KVEngine → Option KVEngine
  | [], e => some e
  | c :: cs, e => do
    let (e, _) ← e.call c.now c.call
    run cs e

end KVEngine

end FastGraph
