import FastGraph.Misc.UnorderedMap

/-!
# The pool allocator

`PoolAllocator` (`memory/pool_allocator.hpp`): blocks from `malloc` are carved into slots, and a
free slot holds the link to the next free one where a live slot holds its object. Pointers are
addresses, and `none` is `nullptr`. What `malloc` returns to the `n`-th call of `grow` is a
parameter. A failed `assert` ends the program: the call does not return.
-/

namespace FastGraph

/-- `BlockSize` and `sizeof( Slot )`, which the `static_assert` keeps from being less than the
size of a pointer (`pool_allocator.hpp:56`). -/
structure PoolLayout where
  blockSize : Nat
  sizeofSlot : Nat
  large : 8 ≤ sizeofSlot

namespace PoolLayout

variable (L : PoolLayout)

/-- The slots of a block (`pool_allocator.hpp:59`). -/
def count : Nat := L.blockSize / L.sizeofSlot

/-- `&block[i]`. -/
def slotAt (block i : Nat) : Nat := block + i * L.sizeofSlot

end PoolLayout

/-- `union Slot` (`pool_allocator.hpp:51-54`): the member that was written last. -/
inductive Slot (T : Type) where
  | obj (x : T)
  | next (p : Option Nat)
  deriving DecidableEq, Repr

/-- `class PoolAllocator` (`pool_allocator.hpp:7-72`) and the memory of its slots. -/
structure PoolAllocator (T : Type) where
  memory : UnorderedMap Nat (Slot T)
  freeList : Option Nat
  blocks : List Nat

namespace PoolAllocator

variable {T : Type} (L : PoolLayout) (malloc : Nat → Option Nat)

/-- The first `n` iterations of the loop of `grow` (`pool_allocator.hpp:64-65`). -/
def carveLoop (block n : Nat) (memory : UnorderedMap Nat (Slot T)) : UnorderedMap Nat (Slot T) :=
  (List.range n).foldl
    (fun memory i => memory.set (L.slotAt block i) (.next (some (L.slotAt block (i + 1))))) memory

/-- The links of a new block, the last one to the old free list (`pool_allocator.hpp:64-66`). -/
def carve (block : Nat) (freeList : Option Nat) (memory : UnorderedMap Nat (Slot T)) :
    UnorderedMap Nat (Slot T) :=
  (carveLoop L block (L.count - 1) memory).set (L.slotAt block (L.count - 1)) (.next freeList)

/-- `PoolAllocator::grow` (`pool_allocator.hpp:58-68`). -/
def grow (p : PoolAllocator T) : Option (PoolAllocator T) :=
  if L.count = 0 then none
  else
    match malloc p.blocks.length with
    | none => none
    | some block =>
      some { memory := carve L block p.freeList p.memory
             freeList := some block
             blocks := p.blocks ++ [block] }

/-- The constructor (`pool_allocator.hpp:11-13`). -/
def construct : Option (PoolAllocator T) := grow L malloc ⟨∅, none, []⟩

/-- `PoolAllocator::allocate` (`pool_allocator.hpp:23-30`). The link of a slot that holds an
object cannot be read. -/
def allocate (p : PoolAllocator T) : Option (PoolAllocator T × Nat) := do
  let ready := if p.freeList = none then p.grow L malloc else some p
  let p ← ready
  let slot ← p.freeList
  match p.memory.find slot with
  | some (.next next) => some ({ p with freeList := next }, slot)
  | _ => none

/-- `PoolAllocator::deallocate` (`pool_allocator.hpp:32-36`). -/
def deallocate (p : PoolAllocator T) (ptr : Nat) : PoolAllocator T :=
  { p with memory := p.memory.set ptr (.next p.freeList), freeList := some ptr }

/-- `*ptr = x`. -/
def write (p : PoolAllocator T) (ptr : Nat) (x : T) : PoolAllocator T :=
  { p with memory := p.memory.set ptr (.obj x) }

/-- `*ptr`. -/
def read (p : PoolAllocator T) (ptr : Nat) : Option T :=
  match p.memory.find ptr with
  | some (.obj x) => some x
  | _ => none

/-- `PoolAllocator::make` (`pool_allocator.hpp:38-43`), for an object that has been built. -/
def make (p : PoolAllocator T) (x : T) : Option (PoolAllocator T × Nat) := do
  let (p, ptr) ← p.allocate L malloc
  some (p.write ptr x, ptr)

/-- `PoolAllocator::destroy` (`pool_allocator.hpp:45-48`). -/
def destroy (p : PoolAllocator T) (ptr : Nat) : PoolAllocator T := p.deallocate ptr

end PoolAllocator

end FastGraph
