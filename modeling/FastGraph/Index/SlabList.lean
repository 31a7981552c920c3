import FastGraph.Index.SkipList
import FastGraph.Memory.SlabAllocator

/-!
# Skip lists on the slab allocator

All skip lists take their nodes from one slab allocator (`index/skiplist.cpp:7-25`), which hands
out the address of a freed node again. Here are the functions of `SkipList` that make or free
nodes, with the calls of the allocator in their places; the others do not differ. A list has its
nodes in its own heap, and the memory of the allocator holds the links of the free blocks. The
field `nextAddr` is not used.
-/

namespace FastGraph

/-- `sizeof(SkipNode)`, of which the declaration has one pointer, in a layout that leaves the
largest nodes in a class of the allocator. -/
structure NodeLayout where
  sizeofNode : Nat
  small : sizeofNode + 8 * (skipMaxLevel - 1) ≤ 2048

/-- The bytes of a node (`skiplist.cpp:10`, `:23-24`). -/
def NodeLayout.nodeSize (L : NodeLayout) (levels : Nat) : Nat := L.sizeofNode + 8 * (levels - 1)

namespace SkipList
variable {S T : Type} (L : NodeLayout)

/-- `SkipNode::make` (`skiplist.cpp:9-18`), which writes to what it gets from the allocator. -/
def makeNode (s : SlabAllocator T) (got : Option Nat) (heap : UnorderedMap Nat (SkipNode S))
    (levels : Nat) (score : S) (member : Bytes) :
    Option (SlabAllocator T × UnorderedMap Nat (SkipNode S) × Nat) := do
  let (s, mem) ← s.allocate got (L.nodeSize levels)
  let n ← mem
  some (s, heap.set n (SkipNode.make levels score member), n)

/-- `SkipNode::free` (`skiplist.cpp:20-25`). -/
def freeNode (s : SlabAllocator T) (heap : UnorderedMap Nat (SkipNode S)) (n : Nat) :
    Option (SlabAllocator T × UnorderedMap Nat (SkipNode S)) := do
  let node ← heap.find n
  let s ← s.deallocate n (L.nodeSize node.level)
  some (s, heap.erase n)

/-- The constructor (`skiplist.cpp:27-30`). -/
def emptyOn [Inhabited S] (s : SlabAllocator T) (got : Option Nat) :
    Option (SlabAllocator T × SkipList S) := do
  let (s, heap, head) ← makeNode L s got ∅ skipMaxLevel default []
  some (s, ⟨heap, 0, head, 1, 0, ∅⟩)

section
variable [BEq S] [LT S] [DecidableLT S]

/-- `SkipList::remove` (`skiplist.cpp:97-124`). -/
def removeOn (s : SlabAllocator T) (l : SkipList S) (score : S) (member : Bytes) :
    Option (SlabAllocator T × SkipList S × Bool) := do
  let (_, update) ← l.search (less score member) fun _ => none
  match ← forward l.heap (← update 0) 0 with
  | none => some (s, l, false)
  | some target =>
    let node ← l.heap.find target
    if !isAt score member node then some (s, l, false)
    else
      let heap ← unlinkLoop target update l.level 0 l.heap
      let (s, heap) ← freeNode L s heap target
      let level ← shrinkLevel heap l.head l.level
      some (s, { l with
        heap := heap
        level := level
        memberScores := l.memberScores.erase member
        size := l.size - 1 }, true)

/-- The end of `insert` (`skiplist.cpp:81-94`), after the searches. -/
def insertNewOn (s : SlabAllocator T) (got : Option Nat) (l : SkipList S)
    (update : Nat → Option Nat) (coins : List Bool) (score : S) (member : Bytes) :
    Option (SlabAllocator T × SkipList S) := do
  let lvl := randomLevel coins 1
  let update : Nat → Option Nat :=
    fun i => if l.level ≤ i ∧ i < lvl then some l.head else update i
  let level := if l.level < lvl then lvl else l.level
  let (s, heap, n) ← makeNode L s got l.heap lvl score member
  let heap ← (List.range lvl).foldlM (linkAt n update) heap
  some (s, { l with
    heap := heap
    level := level
    memberScores := l.memberScores.set member score
    size := l.size + 1 })

/-- `SkipList::insert` (`skiplist.cpp:48-95`). -/
def insertOn (s : SlabAllocator T) (got : Option Nat) (l : SkipList S) (coins : List Bool)
    (score : S) (member : Bytes) : Option (SlabAllocator T × SkipList S) := do
  let (_, update) ← l.search (less score member) fun _ => none
  let next ← forward l.heap (← update 0) 0
  let present ← presentAt l.heap score member next
  if present then some (s, l)
  else
    match l.scoreOf member with
    | none => insertNewOn L s got l update coins score member
    | some old =>
      if old != score then do
        let (s, l, _) ← removeOn L s l old member
        let (_, update) ← l.search (less score member) update
        insertNewOn L s got l update coins score member
      else insertNewOn L s got l update coins score member

end

end SkipList

/-- The calls on a family of skip lists. -/
inductive ListCall (K S : Type) where
  | create (k : K)
  | insert (k : K) (coins : List Bool) (score : S) (member : Bytes)
  | remove (k : K) (score : S) (member : Bytes)

namespace ListCall
variable {K S T : Type} [DecidableEq K] [Inhabited S] [BEq S] [LT S] [DecidableLT S]

/-- The levels of the node that a call makes, if it makes one. -/
def levels : ListCall K S → Option Nat
  | create _ => some skipMaxLevel
  | insert _ coins _ _ => some (SkipList.randomLevel coins 1)
  | remove .. => none

/-- One call, each node at an address of its own. -/
def run (lists : UnorderedMap K (SkipList S)) :
    ListCall K S → Option (UnorderedMap K (SkipList S) × Bool)
  | create k =>
    if (lists.find k).isSome then none else some (lists.set k SkipList.empty, true)
  | insert k coins score member => do
    let l ← lists.find k
    let l ← l.insert coins score member
    some (lists.set k l, true)
  | remove k score member => do
    let l ← lists.find k
    let (l, done) ← l.remove score member
    some (lists.set k l, done)

/-- One call, with nodes from the allocator. `got` is what `malloc` returns if it is called. -/
def runOn (L : NodeLayout) (s : SlabAllocator T) (got : Option Nat)
    (lists : UnorderedMap K (SkipList S)) :
    ListCall K S → Option (SlabAllocator T × UnorderedMap K (SkipList S) × Bool)
  | create k =>
    if (lists.find k).isSome then none
    else do
      let (s, l) ← SkipList.emptyOn L s got
      some (s, lists.set k l, true)
  | insert k coins score member => do
    let l ← lists.find k
    let (s, l) ← l.insertOn L s got coins score member
    some (s, lists.set k l, true)
  | remove k score member => do
    let l ← lists.find k
    let (s, l, done) ← l.removeOn L s score member
    some (s, lists.set k l, done)

/-- The lists after a sequence of calls, and what the calls return. -/
def runAll : List (ListCall K S) → UnorderedMap K (SkipList S) →
    Option (UnorderedMap K (SkipList S) × List Bool)
  | [], lists => some (lists, [])
  | c :: calls, lists => do
    let (lists, reply) ← c.run lists
    let (lists, replies) ← runAll calls lists
    some (lists, reply :: replies)

end ListCall

end FastGraph
