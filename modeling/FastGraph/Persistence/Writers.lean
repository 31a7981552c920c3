import FastGraph.Persistence.Persistence

/-!
# Who writes the snapshot

`Persistence::save` runs on threads of the pool, which the timer of `Server::start`
(`net/server.cpp:29-35`) keeps busy, `bgsave` on the event loop, and the child it forks in a
process of its own. They all write `path.tmp`. A step is the beginning or the end of a `save`, a
call of `bgsave`, or the end of a child.
-/

namespace FastGraph

/-- A `Persistence` with those who write its snapshot: calls of `save` that have the temporary
file open and children that `bgsave` has forked. -/
structure Writers where
  persistence : Persistence
  threads : Nat
  children : Nat
  deriving DecidableEq, Repr

namespace Writers

/-- A server after its start. -/
def atStart (path : Bytes) : Writers := ⟨⟨path, false⟩, 0, 0⟩

/-- The snapshot writers at work. -/
def active (s : Writers) : Nat := s.threads + s.children

/-- What can happen. `opened` says whether the temporary file can be opened, `forked` whether
there is a child. -/
inductive Event where
  | saveBegins (opened : Bool)
  | saveEnds
  | bgsave (forked : Bool)
  | childEnds
  deriving DecidableEq, Repr

/-- One step. A `save` that cannot open the file ends at once (`rdb.cpp:48`), and the waiter of a
child clears the flag (`persistence.cpp:44-50`). -/
def step (s : Writers) : Event → Option Writers
  | .saveBegins opened =>
    if opened then
      some { s with persistence := s.persistence.saveBegins, threads := s.threads + 1 }
    else some { s with persistence := s.persistence.saveBegins.saveEnds }
  | .saveEnds =>
    if s.threads = 0 then none
    else some { s with persistence := s.persistence.saveEnds, threads := s.threads - 1 }
  | .bgsave forked =>
    let (persistence, started) := s.persistence.bgsave forked
    some { s with persistence := persistence, children := s.children + started.toNat }
  | .childEnds =>
    if s.children = 0 then none
    else some { s with persistence := s.persistence.saveEnds, children := s.children - 1 }

/-- A sequence of steps. -/
def run : List Event → Writers → Option Writers
  | [], s => some s
  | event :: events, s => do
    let s ← s.step event
    run events s

end Writers

end FastGraph
