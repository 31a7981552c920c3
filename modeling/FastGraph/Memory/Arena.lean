import FastGraph.Memory.StringPool
import FastGraph.Misc.Extents

/-!
# Arenas in machine words

`Arena` (`memory/arena.hpp`) with the `size_t` arithmetic of the source: rounding up, the test
against the capacity and the product that `alloc_array` passes on are all taken modulo `2^64`.
A pointer is its offset from `buf_`, and `none` is `nullptr`.
-/

namespace FastGraph

/-- `class Arena` (`arena.hpp:6-57`). -/
structure Arena64 where
  cap : UInt64
  used : UInt64
  deriving DecidableEq, Repr

namespace Arena64

/-- An alignment: a `size_t` that is a power of two. -/
structure Alignment where
  val : UInt64
  power : val.toNat.isPowerOfTwo

/-- The constructor. -/
def ofCapacity (capacity : UInt64) : Arena64 := ⟨capacity, 0⟩

/-- `Arena::alloc` (`arena.hpp:28-33`). -/
def alloc (a : Arena64) (size align : UInt64) : Arena64 × Option UInt64 :=
  let offset := (a.used + align - 1) &&& ~~~(align - 1)
  if a.cap < offset + size then (a, none)
  else ({ a with used := offset + size }, some offset)

/-- `Arena::alloc_array` (`arena.hpp:40-43`) of a type of `sizeofT` bytes. -/
def allocArray (a : Arena64) (sizeofT alignofT n : UInt64) : Arena64 × Option UInt64 :=
  a.alloc (sizeofT * n) alignofT

/-- `Arena::reset` (`arena.hpp:45-47`). -/
def reset (a : Arena64) : Arena64 := { a with used := 0 }

/-- The calls between two resets. -/
inductive Request where
  | alloc (size : UInt64) (align : Alignment)
  | allocArray (sizeofT : UInt64) (alignofT : Alignment) (n : UInt64)

namespace Request

/-- The `size` that `alloc` is given. -/
def size : Request → UInt64
  | alloc size _ => size
  | allocArray sizeofT _ n => sizeofT * n

/-- The `align` that `alloc` is given. -/
def align : Request → Alignment
  | alloc _ align => align
  | allocArray _ alignofT _ => alignofT

end Request

/-- One call. -/
def serve (a : Arena64) : Request → Arena64 × Option UInt64
  | .alloc size align => a.alloc size align.val
  | .allocArray sizeofT alignofT n => a.allocArray sizeofT alignofT.val n

/-- A result that is not `nullptr`: the bytes asked for at the offset returned, and the
alignment asked for. -/
structure Block where
  extent : Extent
  align : Nat
  deriving DecidableEq, Repr

/-- The non-null results of a sequence of calls. -/
def served : List Request → Arena64 → List Block
  | [], _ => []
  | r :: rs, a =>
    match a.serve r with
    | (a, none) => served rs a
    | (a, some offset) => ⟨⟨offset.toNat, r.size.toNat⟩, r.align.val.toNat⟩ :: served rs a

end Arena64

end FastGraph
