import FastGraph.Persistence.Rdb

/-!
# Persistence

`Persistence` (`persistence/persistence.cpp`): the path of the snapshot and the flag that says
that one is being written. The engines it refers to are arguments.
-/

namespace FastGraph

/-- `class Persistence` (`persistence.hpp:7-31`). -/
structure Persistence where
  path : Bytes
  saving : Bool
  deriving DecidableEq, Repr

namespace Persistence
variable {W D : Type} (bits : W ≃ UInt32)

/-- `Persistence::save` (`persistence.cpp:9-16`). An exception leaves the flag set. -/
def save (p : Persistence) (disk : Disk) (kv : KVEngine) (graph : GraphEngine W D) (now : Int)
    (nodeOrder edgeOrder : IterOrder) (calls : RDB.SaveCalls) :
    Persistence × Disk × Except StdException Bool :=
  match RDB.save bits disk p.path kv graph now nodeOrder edgeOrder calls with
  | (disk, .ok ok) => ({ p with saving := false }, disk, .ok ok)
  | (disk, .error e) => ({ p with saving := true }, disk, .error e)

/-- The first line of `save`, `saving_ = true` (`persistence.cpp:10`). -/
def saveBegins (p : Persistence) : Persistence := { p with saving := true }

/-- `saving_ = false`, as at the end of `save` (`persistence.cpp:12`). -/
def saveEnds (p : Persistence) : Persistence := { p with saving := false }

/-- `Persistence::load` (`persistence.cpp:18-23`). -/
def load (p : Persistence) (disk : Disk) (now : Int) (kv : KVEngine) (graph : GraphEngine W D) :
    Option (Bool × KVEngine × GraphEngine W D) :=
  RDB.load bits disk p.path now kv graph

/-- `Persistence::bgsave` (`persistence.cpp:25-54`) in the process that calls it; `forked` says
whether `fork` makes the child, which writes the snapshot of its own copy of the engines. -/
def bgsave (p : Persistence) (forked : Bool) : Persistence × Bool :=
  if p.saving then (p, false)
  else if !forked then (p, false)
  else ({ p with saving := true }, true)

end Persistence

end FastGraph
