import FastGraph.Kv.Hashmap
import FastGraph.Misc.Significand

/-!
# The key-value table in machine words

`RobinHoodMap` (`kv/hashmap.cpp`) with the widths of the source: the mask, the slot numbers and
the distances are `uint32_t`, and the load test is taken in `float`. The mask of more than
`2 ^ 32` slots loses its upper bits. A `while (true)` is run for at most `fuel` turns; `none`
is a loop that is not done by then. Sizes and capacities are `size_t`, which no table of fewer
than `2 ^ 63` slots overflows.
-/

namespace FastGraph

/-- `RobinHoodMap::Entry` (`hashmap.hpp:12-18`). -/
structure Entry32 where
  hash : UInt32
  dib : UInt32
  key : Bytes
  val : Bytes
  deriving DecidableEq, Repr

namespace Entry32

/-- `Entry::empty`. -/
def empty (e : Entry32) : Bool := e.hash == hashEmpty

/-- What `clear_all` and `erase_at` leave in a slot. -/
def vacant : Entry32 := ⟨hashEmpty, 0, [], []⟩

end Entry32

/-- `class RobinHoodMap` (`hashmap.hpp:7-45`). -/
structure RobinHoodMap32 where
  entries : Array Entry32
  size : Nat
  capacity : Nat
  mask : UInt32
  deriving DecidableEq, Repr

namespace RobinHoodMap32
open RobinHoodMap (Call Reply nextPow2)

/-- `RobinHoodMap::clear_all` of a new block (`hashmap.cpp:139-142`). -/
def clearAll (capacity : Nat) : Array Entry32 := Array.replicate capacity Entry32.vacant

/-- The constructor (`hashmap.cpp:5-10`). -/
def ofInitial (initial : Nat) : RobinHoodMap32 :=
  { entries := clearAll (nextPow2 initial)
    size := 0
    capacity := nextPow2 initial
    mask := UInt32.ofNat (nextPow2 initial - 1) }

/-- The default constructor (`hashmap.hpp:20`). -/
def empty : RobinHoodMap32 := ofInitial 16

/-- `entries_[idx]`. -/
def slot (entries : Array Entry32) (idx : Nat) : Entry32 := entries.getD idx Entry32.vacant

/-- The loop of `set` (`hashmap.cpp:26-46`). -/
def setLoop (mask : UInt32) (h : UInt32) :
    Nat → UInt32 → Entry32 → Array Entry32 → Option (Array Entry32 × Bool)
  | 0, _, _, _ => none
  | fuel + 1, idx, incoming, entries =>
    let s := slot entries idx.toNat
    if s.empty then some (entries.setIfInBounds idx.toNat incoming, true)
    else if s.hash = h ∧ s.key = incoming.key then
      some (entries.setIfInBounds idx.toNat { s with val := incoming.val }, false)
    else if s.dib < incoming.dib then
      setLoop mask h fuel ((idx + 1) &&& mask) { s with dib := s.dib + 1 }
        (entries.setIfInBounds idx.toNat incoming)
    else
      setLoop mask h fuel ((idx + 1) &&& mask) { incoming with dib := incoming.dib + 1 } entries

/-- The inner loop of `grow` (`hashmap.cpp:122-134`). -/
def growInsert (mask : UInt32) :
    Nat → UInt32 → Entry32 → Array Entry32 → Option (Array Entry32)
  | 0, _, _, _ => none
  | fuel + 1, idx, incoming, entries =>
    let s := slot entries idx.toNat
    if s.empty then some (entries.setIfInBounds idx.toNat incoming)
    else if s.dib < incoming.dib then
      growInsert mask fuel ((idx + 1) &&& mask) { s with dib := s.dib + 1 }
        (entries.setIfInBounds idx.toNat incoming)
    else growInsert mask fuel ((idx + 1) &&& mask) { incoming with dib := incoming.dib + 1 } entries

/-- One iteration of the loop of `grow` over the old slots (`hashmap.cpp:109-135`). -/
def growStep (fuel : Nat) (m : RobinHoodMap32) (old : Entry32) : Option RobinHoodMap32 :=
  if old.empty then some m
  else do
    let entries ← growInsert m.mask fuel (old.hash &&& m.mask) { old with dib := 0 } m.entries
    some { m with entries := entries, size := m.size + 1 }

/-- `RobinHoodMap::grow` (`hashmap.cpp:99-137`). -/
def grow (fuel : Nat) (m : RobinHoodMap32) : Option RobinHoodMap32 :=
  m.entries.toList.foldlM (growStep fuel)
    { entries := clearAll (m.capacity * 2)
      size := 0
      capacity := m.capacity * 2
      mask := UInt32.ofNat (m.capacity * 2 - 1) }

/-- The load test of `set` (`hashmap.cpp:15`): `size_ + 1` is converted to `float`, with 24 bits
of significand, and the capacity, a power of two, times `0.75f` is exact. -/
def overloaded (m : RobinHoodMap32) : Bool := 3 * m.capacity < 4 * roundNearest 24 (m.size + 1)

/-- `RobinHoodMap::set` (`hashmap.cpp:14-47`). -/
def set (fuel : Nat) (m : RobinHoodMap32) (key val : Bytes) : Option (RobinHoodMap32 × Bool) := do
  let roomy := if m.overloaded then m.grow fuel else some m
  let m ← roomy
  let h := RobinHoodMap.hash key
  let (entries, inserted) ← setLoop m.mask h fuel (h &&& m.mask) ⟨h, 0, key, val⟩ m.entries
  some ({ m with entries := entries, size := if inserted then m.size + 1 else m.size }, inserted)

/-- The loop of `get` (`hashmap.cpp:54-61`) and of `del` (`hashmap.cpp:69-80`). -/
def findLoop (mask : UInt32) (h : UInt32) (key : Bytes) (entries : Array Entry32) :
    Nat → UInt32 → UInt32 → Option (Option UInt32)
  | 0, _, _ => none
  | fuel + 1, idx, dib =>
    let s := slot entries idx.toNat
    if s.empty then some none
    else if s.dib < dib then some none
    else if s.hash = h ∧ s.key = key then some (some idx)
    else findLoop mask h key entries fuel ((idx + 1) &&& mask) (dib + 1)

/-- `RobinHoodMap::get` (`hashmap.cpp:49-62`): what the returned pointer shows. -/
def get (fuel : Nat) (m : RobinHoodMap32) (key : Bytes) : Option (Option Bytes) := do
  let h := RobinHoodMap.hash key
  let found ← findLoop m.mask h key m.entries fuel (h &&& m.mask) 0
  some (found.map fun idx => (slot m.entries idx.toNat).val)

/-- `RobinHoodMap::erase_at` (`hashmap.cpp:84-97`). -/
def eraseAt (mask : UInt32) : Nat → UInt32 → Array Entry32 → Option (Array Entry32)
  | 0, _, _ => none
  | fuel + 1, idx, entries =>
    let next := (idx + 1) &&& mask
    let nx := slot entries next.toNat
    if nx.empty ∨ nx.dib = 0 then some (entries.setIfInBounds idx.toNat Entry32.vacant)
    else eraseAt mask fuel next (entries.setIfInBounds idx.toNat { nx with dib := nx.dib - 1 })

/-- `RobinHoodMap::del` (`hashmap.cpp:64-82`). -/
def del (fuel : Nat) (m : RobinHoodMap32) (key : Bytes) : Option (RobinHoodMap32 × Bool) := do
  let h := RobinHoodMap.hash key
  match ← findLoop m.mask h key m.entries fuel (h &&& m.mask) 0 with
  | none => some (m, false)
  | some idx =>
    let entries ← eraseAt m.mask fuel idx m.entries
    some ({ m with entries := entries, size := m.size - 1 }, true)

/-! ### Runs -/

/-- One call, with at most `fuel` turns in each of its loops. -/
def call (fuel : Nat) (m : RobinHoodMap32) : Call → Option RobinHoodMap32
  | .set key val => (m.set fuel key val).map Prod.fst
  | .get key => (m.get fuel key).map fun _ => m
  | .del key => (m.del fuel key).map Prod.fst

/-- One call with what it returns, with at most `fuel` turns in each of its loops. -/
def answer (fuel : Nat) (m : RobinHoodMap32) : Call → Option (RobinHoodMap32 × Reply)
  | .set key val => do
    let (m, inserted) ← m.set fuel key val
    some (m, ⟨inserted, none, m.size⟩)
  | .get key => do
    let value ← m.get fuel key
    some (m, ⟨value.isSome, value, m.size⟩)
  | .del key => do
    let (m, deleted) ← m.del fuel key
    some (m, ⟨deleted, none, m.size⟩)

/-- A sequence of calls and its replies. -/
def run (fuel : Nat) : List Call → RobinHoodMap32 → Option (List Reply)
  | [], _ => some []
  | c :: cs, m => do
    let (m, reply) ← m.answer fuel c
    let replies ← run fuel cs m
    some (reply :: replies)

end RobinHoodMap32

end FastGraph
