import FastGraph.Misc.UnorderedMap

/-!
# Arenas and the string pool

`Arena` (`memory/arena.hpp`) hands out offsets into one block; `StringPool`
(`memory/string_pool.hpp`) interns strings in an arena of its own. A `char*` into the pool
is the offset it points at, and `none` is `nullptr`.
-/

namespace FastGraph

/-- A `const char*` into the arena of a pool. -/
abbrev CharPtr := Option Nat

/-- `class Arena` (`arena.hpp:6-52`): the capacity of the block and the bytes in use. -/
structure Arena where
  cap : Nat
  used : Nat
  deriving DecidableEq, Repr

namespace Arena

/-- The constructor. -/
def ofCapacity (capacity : Nat) : Arena := ⟨capacity, 0⟩

/-- The offset `alloc` rounds up to (`arena.hpp:27`); alignments are powers of two. -/
def alignUp (used align : Nat) : Nat := (used + align - 1) / align * align

/-- `Arena::alloc` (`arena.hpp:26-31`). -/
def alloc (a : Arena) (size align : Nat) : Arena × Option Nat :=
  let offset := alignUp a.used align
  if a.cap < offset + size then (a, none)
  else ({ a with used := offset + size }, some offset)

/-- `Arena::reset`. -/
def reset (a : Arena) : Arena := { a with used := 0 }

/-- `alignof(std::max_align_t)`. -/
def maxAlign : Nat := 16

end Arena

/-- `class StringPool` (`string_pool.hpp:7-29`). `memory` holds what `memcpy` wrote at each
offset. -/
structure StringPool where
  arena : Arena
  table : UnorderedMap Bytes Nat
  memory : UnorderedMap Nat Bytes
  deriving DecidableEq

namespace StringPool

/-- The default constructor. -/
def empty : StringPool := ⟨.ofCapacity (4 * 1024 * 1024), ∅, ∅⟩

/-- `StringPool::intern` (`string_pool.hpp:11-20`). -/
def intern (p : StringPool) (s : Bytes) : StringPool × CharPtr :=
  match p.table.find s with
  | some ptr => (p, some ptr)
  | none =>
    match p.arena.alloc (s.length + 1) Arena.maxAlign with
    | (_, none) => (p, none)
    | (arena, some ptr) =>
      ({ arena := arena
         table := p.table.set s ptr
         memory := p.memory.set ptr (s ++ [0]) }, some ptr)

/-- `std::string(ptr)`: the bytes up to the first NUL. -/
def cString (p : StringPool) (ptr : Nat) : Bytes :=
  ((p.memory.find ptr).getD []).takeWhile (· ≠ 0)

end StringPool

end FastGraph
