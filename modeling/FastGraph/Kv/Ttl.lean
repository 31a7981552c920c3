import FastGraph.Misc.UnorderedMap

/-!
# Expiry

`TTLManager` (`kv/ttl.cpp`): a binary heap of deadlines with the position of every key.
The clock is read once by each call that the source lets read it and is an argument here.
Deadlines are `Ms`, that is `int64_t` milliseconds, and wrap as such.
-/

namespace FastGraph

/-- `struct TTLEntry` (`ttl.hpp:12-16`). -/
structure TTLEntry where
  expiresAt : Int
  key : Bytes
  heapIdx : Nat
  deriving DecidableEq, Repr

/-- `class TTLManager` (`ttl.hpp:18-35`). -/
structure TTLManager where
  heap : Array TTLEntry
  index : UnorderedMap Bytes Nat
  deriving DecidableEq

namespace TTLManager

/-- A manager without deadlines. -/
def empty : TTLManager := ⟨#[], ∅⟩

/-- `heap_[i]`. -/
def entry (t : TTLManager) (i : Nat) : TTLEntry := t.heap.getD i ⟨0, [], 0⟩

/-- `TTLManager::swap_entries` (`ttl.cpp:87-93`). -/
def swapEntries (t : TTLManager) (a b : Nat) : TTLManager :=
  let toA := t.entry b
  let toB := t.entry a
  { heap := (t.heap.setIfInBounds a { toA with heapIdx := a }).setIfInBounds b
      { toB with heapIdx := b }
    index := (t.index.set toA.key a).set toB.key b }

/-- The loop of `sift_up` (`ttl.cpp:66-71`). -/
def siftUpLoop : Nat → TTLManager → Nat → TTLManager
  | 0, t, _ => t
  | fuel + 1, t, i =>
    if i = 0 then t
    else
      let parent := (i - 1) / 2
      if (t.entry parent).expiresAt ≤ (t.entry i).expiresAt then t
      else siftUpLoop fuel (t.swapEntries parent i) parent

/-- `TTLManager::sift_up` (`ttl.cpp:65-72`): the position decreases in every iteration. -/
def siftUp (t : TTLManager) (i : Nat) : TTLManager := siftUpLoop i t i

/-- The position `sift_down` moves the entry at `i` to (`ttl.cpp:77-81`). -/
def smallest (t : TTLManager) (i : Nat) : Nat :=
  let n := t.heap.size
  let left := 2 * i + 1
  let right := 2 * i + 2
  let smallest := i
  let smallest :=
    if left < n ∧ (t.entry left).expiresAt < (t.entry smallest).expiresAt then left else smallest
  if right < n ∧ (t.entry right).expiresAt < (t.entry smallest).expiresAt then right else smallest

/-- The loop of `sift_down` (`ttl.cpp:76-85`). -/
def siftDownLoop : Nat → TTLManager → Nat → TTLManager
  | 0, t, _ => t
  | fuel + 1, t, i =>
    if t.smallest i = i then t
    else siftDownLoop fuel (t.swapEntries i (t.smallest i)) (t.smallest i)

/-- `TTLManager::sift_down` (`ttl.cpp:74-86`): the position increases in every iteration and
stays below the size. -/
def siftDown (t : TTLManager) (i : Nat) : TTLManager := siftDownLoop (t.heap.size - i) t i

/-- `TTLManager::set_expiry` (`ttl.cpp:9-23`). -/
def setExpiry (t : TTLManager) (key : Bytes) (ttlMs now : Int) : TTLManager :=
  let deadline := toInt64 (now + ttlMs)
  match t.index.find key with
  | some idx =>
    let t := { t with heap := t.heap.setIfInBounds idx { t.entry idx with expiresAt := deadline } }
    (t.siftUp idx).siftDown idx
  | none =>
    let idx := t.heap.size
    siftUp { heap := t.heap.push ⟨deadline, key, idx⟩, index := t.index.set key idx } idx

/-- `TTLManager::remove_expiry` (`ttl.cpp:26-41`). -/
def removeExpiry (t : TTLManager) (key : Bytes) : TTLManager :=
  match t.index.find key with
  | none => t
  | some idx =>
    let index := t.index.erase key
    if idx ≠ t.heap.size - 1 then
      let back : TTLEntry := { t.entry (t.heap.size - 1) with heapIdx := idx }
      let t : TTLManager :=
        { heap := (t.heap.setIfInBounds idx back).pop
          index := index.set back.key idx }
      (t.siftUp idx).siftDown idx
    else { heap := t.heap.pop, index := index }

/-- `TTLManager::get_expiry` (`ttl.cpp:43-47`). -/
def getExpiry (t : TTLManager) (key : Bytes) : Int :=
  match t.index.find key with
  | none => -1
  | some idx => (t.entry idx).expiresAt

/-- The loop of `evict_expired` (`ttl.cpp:52-55`): the heap loses an entry in every
iteration. -/
def evictLoop (now : Int) : Nat → TTLManager → List Bytes → TTLManager × List Bytes
  | 0, t, expired => (t, expired)
  | fuel + 1, t, expired =>
    if 0 < t.heap.size ∧ (t.entry 0).expiresAt ≤ now then
      evictLoop now fuel (t.removeExpiry (t.entry 0).key) (expired ++ [(t.entry 0).key])
    else (t, expired)

/-- `TTLManager::evict_expired` (`ttl.cpp:49-57`). -/
def evictExpired (t : TTLManager) (now : Int) : TTLManager × List Bytes :=
  evictLoop now t.heap.size t []

/-- `TTLManager::size`. -/
def size (t : TTLManager) : Nat := t.heap.size

end TTLManager

end FastGraph
