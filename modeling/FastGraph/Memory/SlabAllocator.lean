import FastGraph.Memory.PoolAllocator
import FastGraph.Misc.Extents
import Mathlib.Data.Fin.VecNotation

/-!
# The slab allocator

`SlabAllocator` (`memory/slab.hpp`), which all skip lists have in common for their nodes: a
request is served from the free list of the smallest class it fits into, and by `malloc` where
that list is empty or no class is large enough. The blocks of a class are never given to `free`.
Pointers are addresses, and `none` is `nullptr`. What `malloc` returns if it is called is an
argument.
-/

namespace FastGraph

/-- `class SlabAllocator` (`slab.hpp:5-57`): the heads of `pools_` and the memory. `heap` is what
the C library keeps: the blocks that `malloc` has returned and `free` has not been given. -/
structure SlabAllocator (T : Type) where
  memory : UnorderedMap Nat (Slot T)
  pools : Fin 9 → Option Nat
  heap : List Extent

namespace SlabAllocator

variable {T : Type}

/-- An allocator that has served no request. -/
def empty : SlabAllocator T := ⟨∅, fun _ => none, []⟩

/-- `kClasses` (`slab.hpp:7`). -/
def kClasses : Fin 9 → Nat := ![8, 16, 32, 64, 128, 256, 512, 1024, 2048]

/-- `SlabAllocator::size_class` (`slab.hpp:26-30`), with `none` for -1. -/
def sizeClass (size : Nat) : Option (Fin 9) :=
  (List.finRange 9).find? fun i => decide (size ≤ kClasses i)

/-- `malloc( size )`, which returns `got`. -/
def malloc (s : SlabAllocator T) (got : Option Nat) (size : Nat) : SlabAllocator T × Option Nat :=
  ({ s with heap := (got.map fun ptr => ⟨ptr, size⟩).toList ++ s.heap }, got)

/-- `free( ptr )` of a pointer that `malloc` has returned; no other may be given to it. -/
def free (s : SlabAllocator T) (ptr : Nat) : Option (SlabAllocator T) :=
  if s.heap.any fun e => e.offset == ptr then
    some { s with heap := s.heap.eraseP fun e => e.offset == ptr }
  else none

/-- `FreeList::get` (`slab.hpp:39-47`). The link of a block that holds an object cannot be read. -/
def get (s : SlabAllocator T) (got : Option Nat) (cls : Fin 9) :
    Option (SlabAllocator T × Option Nat) :=
  match s.pools cls with
  | none => some (s.malloc got (kClasses cls))
  | some p =>
    match s.memory.find p with
    | some (.next next) => some ({ s with pools := Function.update s.pools cls next }, some p)
    | _ => none

/-- `FreeList::put` (`slab.hpp:49-53`). -/
def put (s : SlabAllocator T) (cls : Fin 9) (p : Nat) : SlabAllocator T :=
  { s with
    memory := s.memory.set p (.next (s.pools cls))
    pools := Function.update s.pools cls (some p) }

/-- `SlabAllocator::allocate` (`slab.hpp:10-14`). -/
def allocate (s : SlabAllocator T) (got : Option Nat) (size : Nat) :
    Option (SlabAllocator T × Option Nat) :=
  match sizeClass size with
  | none => some (s.malloc got size)
  | some cls => s.get got cls

/-- `SlabAllocator::deallocate` (`slab.hpp:16-23`). -/
def deallocate (s : SlabAllocator T) (ptr size : Nat) : Option (SlabAllocator T) :=
  match sizeClass size with
  | none => s.free ptr
  | some cls => some (s.put cls ptr)

/-- `*ptr = x`. -/
def write (s : SlabAllocator T) (ptr : Nat) (x : T) : SlabAllocator T :=
  { s with memory := s.memory.set ptr (.obj x) }

end SlabAllocator

end FastGraph
