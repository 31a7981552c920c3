import FastGraph.Kv.KvEngine

/-!
# A snapshot is taken while commands run

`Server::start` (`net/server.cpp:29-35`) has a thread of the pool save the data while the
event loop goes on. `KVEngine::all_entries` then reads the slots one by one between the calls
of the loop. One iteration of its loop is one step here, and so is one call of the engine.
-/

namespace FastGraph.KVEngine

/-- `all_entries` on its way (`kv_engine.cpp:61-62`): the slot it reads next and what it has
pushed, with the engine it shares with the event loop. -/
structure Scanning where
  engine : KVEngine
  i : Nat
  result : List (Bytes × Bytes × Int)
  deriving DecidableEq

/-- A step of the pool's thread or of the event loop. -/
inductive ScanStep where
  | iterate (now : Int)
  | call (c : Timed)
  deriving DecidableEq, Repr

/-- `all_entries` is entered. -/
def scanning (e : KVEngine) : Scanning := ⟨e, 0, []⟩

namespace Scanning

/-- The loop of `all_entries` is left. -/
def ended (s : Scanning) : Bool := s.engine.map.capacity ≤ s.i

/-- One step. The loop compares with the capacity of the moment in every iteration. -/
def step (s : Scanning) : ScanStep → Option Scanning
  | .iterate now =>
    if s.i < s.engine.map.capacity then
      some { s with i := s.i + 1, result := s.result ++ (s.engine.listed now s.i).toList }
    else none
  | .call c => do
    let (e, _) ← s.engine.call c.now c.call
    some { s with engine := e }

/-- A sequence of steps. -/
def run : List ScanStep → Scanning → Option Scanning
  | [], s => some s
  | step :: steps, s => do
    let s ← s.step step
    run steps s

/-- What has been pushed under the key. -/
def entriesOf (s : Scanning) (key : Bytes) : List (Bytes × Bytes × Int) :=
  s.result.filter fun entry => entry.1 = key

/-- The entry of the key is in one of the slots that have been read. -/
def behind (s : Scanning) (key : Bytes) : Bool :=
  (List.range s.i).any fun i =>
    let entry := RobinHoodMap.slot s.engine.map.entries i
    !entry.empty && entry.key == key

/-- A call of the event loop moves the entry of the key: out of the slots that have been read
when `read` is set, and into them otherwise. -/
def crosses (key : Bytes) (read : Bool) (s s' : Scanning) : ScanStep → Bool
  | .iterate _ => false
  | .call _ => s.behind key == read && s'.behind key == !read

/-- How often the calls of a sequence of steps move the entry of the key that way. -/
def crossings (key : Bytes) (read : Bool) : List ScanStep → Scanning → Nat
  | [], _ => 0
  | step :: steps, s =>
    match s.step step with
    | none => 0
    | some s' => (crosses key read s s' step).toNat + crossings key read steps s'

end Scanning

/-- The key a call names. -/
def Call.key? : Call → Option Bytes
  | .set key _ _ => some key
  | .get key => some key
  | .del key => some key
  | .existsKey key => some key
  | .expire key _ => some key
  | .persist key => some key
  | .ttl key => some key
  | .tick => none

/-- The key the call of a step names. -/
def ScanStep.key? : ScanStep → Option Bytes
  | .iterate _ => none
  | .call c => c.call.key?

end FastGraph.KVEngine
