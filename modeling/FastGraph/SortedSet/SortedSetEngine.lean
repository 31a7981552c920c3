import FastGraph.Index.SkipList

/-!
# Sorted sets

`SortedSetEngine` (`sorted_set/sorted_set_engine.cpp`): a skip list for each key.
-/

namespace FastGraph

/-- `class SortedSetEngine` (`sorted_set_engine.hpp:8-34`). -/
structure SortedSetEngine (S : Type) where
  sets : UnorderedMap Bytes (SkipList S)

namespace SortedSetEngine
variable {S : Type} [Inhabited S] [BEq S] [LT S] [DecidableLT S] [LE S] [DecidableLE S]

/-- An engine without sets. -/
def empty : SortedSetEngine S := ⟨∅⟩

/-- `SortedSetEngine::get_or_create` (`sorted_set_engine.cpp:8-14`). -/
def getOrCreate (e : SortedSetEngine S) (key : Bytes) : SkipList S :=
  (e.sets.find key).getD .empty

/-- `SortedSetEngine::zadd` (`sorted_set_engine.cpp:21-27`); `coins` are those of the call of
`random_level`, if there is one. -/
def zadd (e : SortedSetEngine S) (key : Bytes) (coins : List Bool) (score : S) (member : Bytes) :
    Option (SortedSetEngine S × Int) := do
  let sl := e.getOrCreate key
  let isNew := (sl.scoreOf member).isNone
  let sl ← sl.insert coins score member
  some (⟨e.sets.set key sl⟩, if isNew then 1 else 0)

/-- `SortedSetEngine::zrem` (`sorted_set_engine.cpp:29-36`). -/
def zrem (e : SortedSetEngine S) (key member : Bytes) : Option (SortedSetEngine S × Bool) :=
  match e.sets.find key with
  | none => some (e, false)
  | some sl =>
    match sl.scoreOf member with
    | none => some (e, false)
    | some sc => do
      let (sl, removed) ← sl.remove sc member
      some (⟨e.sets.set key sl⟩, removed)

/-- `SortedSetEngine::zscore` (`sorted_set_engine.cpp:38-43`). -/
def zscore (e : SortedSetEngine S) (key member : Bytes) : Option S := do
  let sl ← e.sets.find key
  sl.scoreOf member

/-- `SortedSetEngine::zrange` (`sorted_set_engine.cpp:45-51`), which does not look at
`with_scores`. -/
def zrange (e : SortedSetEngine S) (key : Bytes) (start stop : Int) : Option (List (S × Bytes)) :=
  match e.sets.find key with
  | none => some []
  | some sl => sl.rangeByRank start stop

/-- `SortedSetEngine::zrangebyscore` (`sorted_set_engine.cpp:53-59`). -/
def zrangebyscore (e : SortedSetEngine S) (key : Bytes) (minScore maxScore : S) :
    Option (List (S × Bytes)) :=
  match e.sets.find key with
  | none => some []
  | some sl => sl.rangeByScore minScore maxScore

/-- `SortedSetEngine::zcard` (`sorted_set_engine.cpp:61-64`). -/
def zcard (e : SortedSetEngine S) (key : Bytes) : Int :=
  match e.sets.find key with
  | none => 0
  | some sl => sl.size

/-- The loop of `zrank` (`sorted_set_engine.cpp:73-75`) over the results from number `i` on, of which
there are `size` as an `int`. -/
def positionOf (member : Bytes) (size : Int) : Int → List (S × Bytes) → Int
  | i, r :: rest =>
    if i < size then if r.2 == member then i else positionOf member size (i + 1) rest else -1
  | _, [] => -1

/-- `SortedSetEngine::zrank` (`sorted_set_engine.cpp:66-77`). -/
def zrank (e : SortedSetEngine S) (key member : Bytes) : Option Int :=
  match e.sets.find key with
  | none => some (-1)
  | some sl =>
    match sl.scoreOf member with
    | none => some (-1)
    | some _ => do
      let results ← sl.rangeByRank 0 (toInt32 sl.size)
      some (positionOf member (toInt32 results.length) 0 results)

/-! ### Runs -/

/-- The calls of a client of the engine. -/
inductive Call (S : Type) where
  | zadd (key : Bytes) (coins : List Bool) (score : S) (member : Bytes)
  | zrem (key member : Bytes)
  | zscore (key member : Bytes)
  | zrange (key : Bytes) (start stop : Int)
  | zrangebyscore (key : Bytes) (minScore maxScore : S)
  | zcard (key : Bytes)
  | zrank (key member : Bytes)
  deriving DecidableEq, Repr

/-- What a call returns. -/
inductive Reply (S : Type) where
  | int (n : Int)
  | flag (b : Bool)
  | score (s : Option S)
  | elements (es : List (S × Bytes))
  deriving DecidableEq, Repr

/-- One call. -/
def call (e : SortedSetEngine S) : Call S → Option (SortedSetEngine S × Reply S)
  | .zadd key coins score member => do
    let (e, added) ← e.zadd key coins score member
    some (e, .int added)
  | .zrem key member => do
    let (e, removed) ← e.zrem key member
    some (e, .flag removed)
  | .zscore key member => some (e, .score (e.zscore key member))
  | .zrange key start stop => do
    let es ← e.zrange key start stop
    some (e, .elements es)
  | .zrangebyscore key minScore maxScore => do
    let es ← e.zrangebyscore key minScore maxScore
    some (e, .elements es)
  | .zcard key => some (e, .int (e.zcard key))
  | .zrank key member => do
    let rank ← e.zrank key member
    some (e, .int rank)

/-- The engine after a sequence of calls. -/
def after (calls : List (Call S)) (e : SortedSetEngine S) : Option (SortedSetEngine S) :=
  calls.foldlM (fun e c => (e.call c).map Prod.fst) e

/-- The replies to a sequence of calls. -/
def run : List (Call S) → SortedSetEngine S → Option (List (Reply S))
  | [], _ => some []
  | c :: cs, e => do
    let (e, reply) ← e.call c
    let replies ← run cs e
    some (reply :: replies)

/-! ### Members -/

/-- The members in the list of a key, in its order. -/
def members (e : SortedSetEngine S) (key : Bytes) : Option (List Bytes) :=
  (e.getOrCreate key).elements.map (List.map Prod.snd)

/-- The members of a key after a call: a `ZADD` adds its member and a `ZREM` removes it. -/
def stand (key : Bytes) (ms : Finset Bytes) : Call S → Finset Bytes
  | .zadd key' _ _ member => if key' = key then insert member ms else ms
  | .zrem key' member => if key' = key then ms.erase member else ms
  | _ => ms

/-- The members that the calls have added to a key and not removed since. -/
def standing (key : Bytes) (calls : List (Call S)) : Finset Bytes := calls.foldl (stand key) ∅

end SortedSetEngine

end FastGraph
