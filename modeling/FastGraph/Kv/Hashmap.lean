import FastGraph.Misc.Bytes

/-!
# The key-value table

`RobinHoodMap` (`kv/hashmap.cpp`): open addressing with Robin Hood displacement and
backward-shift deletion. Slots are an array of `capacity` entries. The load test is taken
exactly, and slot numbers and distances are plain numbers, as they are in the 32 bits of
the source while the capacity is at most `2^32`. Every probe loop of the source is a
`while (true)`; here it gives up after one turn of the ring, where a loop of the source
that has found neither its key nor a free slot would go round for ever.
-/

namespace FastGraph

/-- `RobinHoodMap::EMPTY` (`hashmap.hpp:10`). -/
def hashEmpty : UInt32 := 0xFFFFFFFF

/-- `RobinHoodMap::Entry` (`hashmap.hpp:12-18`). -/
structure Entry where
  hash : UInt32
  dib : Nat
  key : Bytes
  val : Bytes
  deriving DecidableEq, Repr

namespace Entry

/-- `Entry::empty`. -/
def empty (e : Entry) : Bool := e.hash == hashEmpty

/-- What `clear_all` and `erase_at` leave in a slot. -/
def vacant : Entry := ⟨hashEmpty, 0, [], []⟩

end Entry

/-- `class RobinHoodMap` (`hashmap.hpp:7-45`). -/
structure RobinHoodMap where
  entries : Array Entry
  size : Nat
  capacity : Nat
  mask : Nat
  deriving DecidableEq, Repr

namespace RobinHoodMap

/-- `RobinHoodMap::hash` (`hashmap.cpp:144-148`), FNV-1a kept off the `EMPTY` mark. -/
def hash (key : Bytes) : UInt32 :=
  let h := key.foldl (fun h c => (h ^^^ c.toUInt32) * 16777619) 2166136261
  if h = hashEmpty then h - 1 else h

/-- `RobinHoodMap::next_pow2` (`hashmap.cpp:150-155`). -/
def nextPow2 (n : Nat) : Nat :=
  let n := n - 1
  let n := n ||| n >>> 1
  let n := n ||| n >>> 2
  let n := n ||| n >>> 4
  let n := n ||| n >>> 8
  let n := n ||| n >>> 16
  n + 1

/-- `RobinHoodMap::clear_all` of a new block (`hashmap.cpp:139-142`). -/
def clearAll (capacity : Nat) : Array Entry := Array.replicate capacity Entry.vacant

/-- The constructor (`hashmap.cpp:5-10`). -/
def ofInitial (initial : Nat) : RobinHoodMap :=
  { entries := clearAll (nextPow2 initial)
    size := 0
    capacity := nextPow2 initial
    mask := nextPow2 initial - 1 }

/-- The default constructor (`hashmap.hpp:20`). -/
def empty : RobinHoodMap := ofInitial 16

/-- `entries_[idx]`. -/
def slot (entries : Array Entry) (idx : Nat) : Entry := entries.getD idx Entry.vacant

/-- The loop of `set` (`hashmap.cpp:26-46`): the new entries and whether the key is new. The
comparison is with the hash of the key even after another entry has been displaced. -/
def setLoop (mask : Nat) (h : UInt32) :
    Nat → Nat → Entry → Array Entry → Option (Array Entry × Bool)
  | 0, _, _, _ => none
  | fuel + 1, idx, incoming, entries =>
    let s := slot entries idx
    if s.empty then some (entries.setIfInBounds idx incoming, true)
    else if s.hash = h ∧ s.key = incoming.key then
      some (entries.setIfInBounds idx { s with val := incoming.val }, false)
    else if s.dib < incoming.dib then
      setLoop mask h fuel ((idx + 1) &&& mask) { s with dib := s.dib + 1 }
        (entries.setIfInBounds idx incoming)
    else
      setLoop mask h fuel ((idx + 1) &&& mask) { incoming with dib := incoming.dib + 1 } entries

/-- The inner loop of `grow` (`hashmap.cpp:122-134`). -/
def growInsert (mask : Nat) : Nat → Nat → Entry → Array Entry → Option (Array Entry)
  | 0, _, _, _ => none
  | fuel + 1, idx, incoming, entries =>
    let s := slot entries idx
    if s.empty then some (entries.setIfInBounds idx incoming)
    else if s.dib < incoming.dib then
      growInsert mask fuel ((idx + 1) &&& mask) { s with dib := s.dib + 1 }
        (entries.setIfInBounds idx incoming)
    else growInsert mask fuel ((idx + 1) &&& mask) { incoming with dib := incoming.dib + 1 } entries

/-- One iteration of the loop of `grow` over the old slots (`hashmap.cpp:109-135`). -/
def growStep (m : RobinHoodMap) (old : Entry) : Option RobinHoodMap :=
  if old.empty then some m
  else do
    let entries ← growInsert m.mask m.capacity (old.hash.toNat &&& m.mask)
      { old with dib := 0 } m.entries
    some { m with entries := entries, size := m.size + 1 }

/-- `RobinHoodMap::grow` (`hashmap.cpp:99-137`). -/
def grow (m : RobinHoodMap) : Option RobinHoodMap :=
  m.entries.toList.foldlM growStep
    { entries := clearAll (m.capacity * 2)
      size := 0
      capacity := m.capacity * 2
      mask := m.capacity * 2 - 1 }

/-- `RobinHoodMap::set` (`hashmap.cpp:14-47`); `MAX_LOAD` is three quarters. -/
def set (m : RobinHoodMap) (key val : Bytes) : Option (RobinHoodMap × Bool) := do
  let roomy := if 3 * m.capacity < 4 * (m.size + 1) then m.grow else some m
  let m ← roomy
  let h := hash key
  let (entries, inserted) ← setLoop m.mask h m.capacity (h.toNat &&& m.mask) ⟨h, 0, key, val⟩ m.entries
  some ({ m with entries := entries, size := if inserted then m.size + 1 else m.size }, inserted)

/-- The loop of `get` (`hashmap.cpp:54-61`) and of `del` (`hashmap.cpp:69-80`): the slot that
holds the key. -/
def findLoop (mask : Nat) (h : UInt32) (key : Bytes) (entries : Array Entry) :
    Nat → Nat → Nat → Option (Option Nat)
  | 0, _, _ => none
  | fuel + 1, idx, dib =>
    let s := slot entries idx
    if s.empty then some none
    else if s.dib < dib then some none
    else if s.hash = h ∧ s.key = key then some (some idx)
    else findLoop mask h key entries fuel ((idx + 1) &&& mask) (dib + 1)

/-- `RobinHoodMap::get` (`hashmap.cpp:49-62`): what the returned pointer shows. -/
def get (m : RobinHoodMap) (key : Bytes) : Option (Option Bytes) := do
  let h := hash key
  let found ← findLoop m.mask h key m.entries m.capacity (h.toNat &&& m.mask) 0
  some (found.map fun idx => (slot m.entries idx).val)

/-- `RobinHoodMap::erase_at` (`hashmap.cpp:84-97`). -/
def eraseAt (mask : Nat) : Nat → Nat → Array Entry → Option (Array Entry)
  | 0, _, _ => none
  | fuel + 1, idx, entries =>
    let next := (idx + 1) &&& mask
    let nx := slot entries next
    if nx.empty ∨ nx.dib = 0 then some (entries.setIfInBounds idx Entry.vacant)
    else eraseAt mask fuel next (entries.setIfInBounds idx { nx with dib := nx.dib - 1 })

/-- `RobinHoodMap::del` (`hashmap.cpp:64-82`). -/
def del (m : RobinHoodMap) (key : Bytes) : Option (RobinHoodMap × Bool) := do
  let h := hash key
  match ← findLoop m.mask h key m.entries m.capacity (h.toNat &&& m.mask) 0 with
  | none => some (m, false)
  | some idx =>
    let entries ← eraseAt m.mask m.capacity idx m.entries
    some ({ m with entries := entries, size := m.size - 1 }, true)

/-! ### Runs -/

/-- The calls of a client of the table. -/
inductive Call where
  | set (key val : Bytes)
  | get (key : Bytes)
  | del (key : Bytes)
  deriving DecidableEq, Repr

/-- What a call returns, and `size()` after it. -/
structure Reply where
  flag : Bool
  value : Option Bytes
  size : Nat
  deriving DecidableEq, Repr

/-- One call. -/
def call (m : RobinHoodMap) : Call → Option (RobinHoodMap × Reply)
  | .set key val => do
    let (m, inserted) ← m.set key val
    some (m, ⟨inserted, none, m.size⟩)
  | .get key => do
    let value ← m.get key
    some (m, ⟨value.isSome, value, m.size⟩)
  | .del key => do
    let (m, deleted) ← m.del key
    some (m, ⟨deleted, none, m.size⟩)

/-- A sequence of calls and its replies. -/
def run : List Call → RobinHoodMap → Option (List Reply)
  | [], _ => some []
  | c :: cs, m => do
    let (m, reply) ← m.call c
    let replies ← run cs m
    some (reply :: replies)

end RobinHoodMap

end FastGraph
