import FastGraph.Misc.Bytes
import FastGraph.Misc.UnorderedMap

/-!
# Skip lists

`SkipList` (`index/skiplist.cpp`): nodes on a heap that are linked at up to sixteen levels,
and a side table of scores. Addresses are numbers that are handed out once. Scores are of
any type with the comparisons of the source. Following a pointer that does not point to a
node, or a pointer that the node does not have, gives nothing, and so does a loop that
takes more steps than there are nodes.
-/

namespace FastGraph

/-- `SKIP_MAX_LEVEL` (`skiplist.hpp:9`). -/
def skipMaxLevel : Nat := 16

/-- `struct SkipNode` (`skiplist.hpp:11-22`). -/
structure SkipNode (S : Type) where
  score : S
  member : Bytes
  level : Nat
  forward : List (Option Nat)
  deriving DecidableEq, Repr

/-- `SkipNode::make` (`skiplist.cpp:9-18`). -/
def SkipNode.make {S : Type} (levels : Nat) (score : S) (member : Bytes) : SkipNode S :=
  ⟨score, member, levels, List.replicate levels none⟩

/-- `class SkipList` (`skiplist.hpp:24-50`). `nextAddr` is the next address the allocator
hands out. -/
structure SkipList (S : Type) where
  heap : UnorderedMap Nat (SkipNode S)
  nextAddr : Nat
  head : Nat
  level : Nat
  size : Nat
  memberScores : UnorderedMap Bytes S

namespace SkipList
variable {S : Type}

/-- The constructor (`skiplist.cpp:27-30`). Nothing reads the score of the head. -/
def empty [Inhabited S] : SkipList S where
  heap := UnorderedMap.set ∅ 0 (SkipNode.make skipMaxLevel default [])
  nextAddr := 1
  head := 0
  level := 1
  size := 0
  memberScores := ∅

/-- The loop of `random_level` (`skiplist.cpp:43-44`); `coins` are the outcomes of its
comparisons `dist(rng_) < 0.5f`, the last of them false. -/
def randomLevel : List Bool → Nat → Nat
  | true :: coins, lvl => if lvl < skipMaxLevel then randomLevel coins (lvl + 1) else lvl
  | _, lvl => lvl

/-- `p->forward[i]`. -/
def forward (heap : UnorderedMap Nat (SkipNode S)) (p i : Nat) : Option (Option Nat) := do
  let node ← heap.find p
  node.forward[i]?

/-- `p->forward[i] = q`. -/
def setForward (heap : UnorderedMap Nat (SkipNode S)) (p i : Nat) (q : Option Nat) :
    Option (UnorderedMap Nat (SkipNode S)) := do
  let node ← heap.find p
  if i < node.forward.length then some (heap.set p { node with forward := node.forward.set i q })
  else none

/-- The inner loop of the searches (`skiplist.cpp:53-57`): along level `i` while the next
node is `before`. -/
def walk (heap : UnorderedMap Nat (SkipNode S)) (before : SkipNode S → Bool) (i : Nat) :
    Nat → Nat → Option Nat
  | 0, _ => none
  | fuel + 1, cur => do
    match ← forward heap cur i with
    | none => some cur
    | some next =>
      let node ← heap.find next
      if before node then walk heap before i fuel next else some cur

/-- The outer loop of the searches (`skiplist.cpp:52-59`): the levels below `i`, downwards.
`update` is the array of that name, of which entries may never have been written. -/
def searchLoop (heap : UnorderedMap Nat (SkipNode S)) (before : SkipNode S → Bool) :
    Nat → Nat → (Nat → Option Nat) → Option (Nat × (Nat → Option Nat))
  | 0, cur, update => some (cur, update)
  | i + 1, cur, update => do
    let cur ← walk heap before i heap.size cur
    searchLoop heap before i cur fun j => if j = i then some cur else update j

/-- A search from the head (`skiplist.cpp:50-59`). -/
def search (l : SkipList S) (before : SkipNode S → Bool) (update : Nat → Option Nat) :
    Option (Nat × (Nat → Option Nat)) :=
  searchLoop l.heap before l.level l.head update

section
variable [BEq S] [LT S] [DecidableLT S]

/-- The order of the list, as `insert` and `remove` test it (`skiplist.cpp:54-56`). -/
def less (score : S) (member : Bytes) (node : SkipNode S) : Bool :=
  node.score < score || (node.score == score && node.member < member)

/-- The node holds the member with the score. -/
def isAt (score : S) (member : Bytes) (node : SkipNode S) : Bool :=
  node.member == member && node.score == score

/-- `SkipList::score_of` (`skiplist.cpp:126-130`). -/
def scoreOf (l : SkipList S) (member : Bytes) : Option S := l.memberScores.find member

/-- The loop of `remove` over the levels (`skiplist.cpp:113-116`). -/
def unlinkLoop (target : Nat) (update : Nat → Option Nat) :
    Nat → Nat → UnorderedMap Nat (SkipNode S) → Option (UnorderedMap Nat (SkipNode S))
  | 0, _, heap => some heap
  | todo + 1, i, heap => do
    let u ← update i
    if (← forward heap u i) ≠ some target then some heap
    else
      let q ← forward heap target i
      let heap ← setForward heap u i q
      unlinkLoop target update todo (i + 1) heap

/-- `while (level_ > 1 && !head_->forward[level_ - 1]) level_--` (`skiplist.cpp:119`). -/
def shrinkLevel (heap : UnorderedMap Nat (SkipNode S)) (head : Nat) : Nat → Option Nat
  | level + 2 => do
    match ← forward heap head (level + 1) with
    | none => shrinkLevel heap head (level + 1)
    | some _ => some (level + 2)
  | level => some level

/-- `SkipList::remove` (`skiplist.cpp:97-124`). -/
def remove (l : SkipList S) (score : S) (member : Bytes) : Option (SkipList S × Bool) := do
  let (_, update) ← l.search (less score member) fun _ => none
  match ← forward l.heap (← update 0) 0 with
  | none => some (l, false)
  | some target =>
    let node ← l.heap.find target
    if !isAt score member node then some (l, false)
    else
      let heap ← unlinkLoop target update l.level 0 l.heap
      let heap := heap.erase target
      let level ← shrinkLevel heap l.head l.level
      some ({ l with
        heap := heap
        level := level
        memberScores := l.memberScores.erase member
        size := l.size - 1 }, true)

/-- One iteration of the loop of `insert` that links the new node `n`
(`skiplist.cpp:89-91`). -/
def linkAt (n : Nat) (update : Nat → Option Nat) (heap : UnorderedMap Nat (SkipNode S)) (i : Nat) :
    Option (UnorderedMap Nat (SkipNode S)) := do
  let u ← update i
  let q ← forward heap u i
  let heap ← setForward heap n i q
  setForward heap u i (some n)

/-- The end of `insert` (`skiplist.cpp:81-94`), after the searches. -/
def insertNew (l : SkipList S) (update : Nat → Option Nat) (coins : List Bool) (score : S)
    (member : Bytes) : Option (SkipList S) := do
  let lvl := randomLevel coins 1
  let update : Nat → Option Nat :=
    fun i => if l.level ≤ i ∧ i < lvl then some l.head else update i
  let level := if l.level < lvl then lvl else l.level
  let n := l.nextAddr
  let heap ← (List.range lvl).foldlM (linkAt n update)
    (l.heap.set n (SkipNode.make lvl score member))
  some { l with
    heap := heap
    nextAddr := n + 1
    level := level
    memberScores := l.memberScores.set member score
    size := l.size + 1 }

/-- The test of `insert` whether the element is there already (`skiplist.cpp:62-63`). -/
def presentAt (heap : UnorderedMap Nat (SkipNode S)) (score : S) (member : Bytes) :
    Option Nat → Option Bool
  | none => some false
  | some next => do
    let node ← heap.find next
    some (isAt score member node)

/-- `SkipList::insert` (`skiplist.cpp:48-95`). -/
def insert (l : SkipList S) (coins : List Bool) (score : S) (member : Bytes) :
    Option (SkipList S) := do
  let (_, update) ← l.search (less score member) fun _ => none
  let next ← forward l.heap (← update 0) 0
  let present ← presentAt l.heap score member next
  if present then some l
  else
    match l.scoreOf member with
    | none => insertNew l update coins score member
    | some old =>
      if old != score then do
        let (l, _) ← l.remove old member
        let (_, update) ← l.search (less score member) update
        insertNew l update coins score member
      else insertNew l update coins score member

end

section
variable [LT S] [DecidableLT S] [LE S] [DecidableLE S]

/-- The collecting loop of `range_by_score` (`skiplist.cpp:140-143`). -/
def collectUpTo (heap : UnorderedMap Nat (SkipNode S)) (maxScore : S) :
    Nat → Option Nat → Option (List (S × Bytes))
  | _, none => some []
  | 0, some _ => none
  | fuel + 1, some cur => do
    let node ← heap.find cur
    if node.score ≤ maxScore then
      let rest ← collectUpTo heap maxScore fuel (← node.forward[0]?)
      some ((node.score, node.member) :: rest)
    else some []

/-- `SkipList::range_by_score` (`skiplist.cpp:132-145`). -/
def rangeByScore (l : SkipList S) (minScore maxScore : S) : Option (List (S × Bytes)) := do
  let (cur, _) ← l.search (fun node => node.score < minScore) fun _ => none
  collectUpTo l.heap maxScore l.heap.size (← forward l.heap cur 0)

end

/-- The loop of `range_by_rank` (`skiplist.cpp:152-156`); `idx` is an `int`. -/
def collectRanks (heap : UnorderedMap Nat (SkipNode S)) (start stop : Int) :
    Nat → Int → Option Nat → Option (List (S × Bytes))
  | _, _, none => some []
  | 0, _, some _ => none
  | fuel + 1, idx, some cur =>
    if idx ≤ stop then do
      let node ← heap.find cur
      let rest ← collectRanks heap start stop fuel (toInt32 (idx + 1)) (← node.forward[0]?)
      some (if start ≤ idx then (node.score, node.member) :: rest else rest)
    else some []

/-- `SkipList::range_by_rank` (`skiplist.cpp:147-157`). -/
def rangeByRank (l : SkipList S) (start stop : Int) : Option (List (S × Bytes)) := do
  collectRanks l.heap start stop l.heap.size 0 (← forward l.heap l.head 0)

/-- What the nodes from `cur` on hold along level 0. -/
def collect (heap : UnorderedMap Nat (SkipNode S)) : Nat → Option Nat → Option (List (S × Bytes))
  | _, none => some []
  | 0, some _ => none
  | fuel + 1, some cur => do
    let node ← heap.find cur
    let rest ← collect heap fuel (← node.forward[0]?)
    some ((node.score, node.member) :: rest)

/-- The elements of the list in its order. No call of the source returns them all: one by score
leaves NaN out, and one by rank counts in `int`. -/
def elements (l : SkipList S) : Option (List (S × Bytes)) := do
  collect l.heap l.heap.size (← forward l.heap l.head 0)

/-! ### Runs -/

/-- A call that changes the list. -/
inductive Op (S : Type) where
  | insert (coins : List Bool) (score : S) (member : Bytes)
  | remove (score : S) (member : Bytes)

section
variable [BEq S] [LT S] [DecidableLT S]

/-- One call. -/
def Op.call (l : SkipList S) : Op S → Option (SkipList S)
  | .insert coins score member => l.insert coins score member
  | .remove score member => do
    let (l, _) ← l.remove score member
    some l

end

end SkipList

end FastGraph
