import FastGraph.Misc.Steps

/-!
# Callbacks for the event loop

`Reactor::post` (`net/reactor.hpp:107-115`) on any thread and the part of `poll` (`:81-100`) that
runs what was posted. A thread pushes the callback under `post_mutex_` and then writes to the
event descriptor; the loop empties the event descriptor and then takes the whole queue. The steps
come in any order. Writes to an eventfd whose counter is full fail, and nobody looks. A callback
is opaque, and may post.
-/

namespace FastGraph

/-- Where the loop is in `poll`. -/
inductive Polling (T : Type) where
  /-- in `epoll_wait`, or between two turns -/
  | waiting
  /-- in a batch, in which the event of the event descriptor is still to come, or is not -/
  | handling (signalled : Bool)
  /-- behind the read of the event descriptor -/
  | drained
  /-- the callbacks of `pending` that are left -/
  | running (pending : List T)
  deriving DecidableEq, Repr

/-- The callbacks that the loop has taken and not yet run. -/
def Polling.pending {T : Type} : Polling T → List T
  | .running pending => pending
  | _ => []

/-- `posted_`, the counter of `event_fd_`, the calls of `post` that have pushed and not yet
written, and the loop. -/
structure Posting (T : Type) where
  posted : List T
  counter : Nat
  writing : Nat
  loop : Polling T
  deriving DecidableEq, Repr

namespace Posting

variable {T : Type}

/-- The reactor after its constructor (`reactor.hpp:28-40`). -/
def construct : Posting T := ⟨[], 0, 0, .waiting⟩

/-- The largest value of an eventfd. -/
def full : Nat := 0xFFFFFFFFFFFFFFFE

/-- The scope of `post` (`reactor.hpp:108-111`). -/
def push (s : Posting T) (cb : T) : Posting T :=
  { s with posted := s.posted ++ [cb], writing := s.writing + 1 }

/-- The write of `post` (`reactor.hpp:113-114`). -/
def signal (s : Posting T) : Posting T :=
  { s with counter := if s.counter < full then s.counter + 1 else s.counter, writing := s.writing - 1 }

/-- The swap with `posted_` (`reactor.hpp:90-94`). -/
def swap (s : Posting T) : Posting T := { s with posted := [], loop := .running s.posted }

/-- What a thread does next. -/
inductive Action (T : Type) where
  | push (cb : T)
  | signal
  | wake (signalled : Bool)
  | skip
  | drain
  | swap
  | call (cb : T)
  | back
  deriving DecidableEq, Repr

/-- The steps of the threads. `epoll_wait` reports the event descriptor only if its counter is not
zero, and may leave it for a later batch. -/
inductive Step : Posting T → Action T → Posting T → Prop where
  | pushed {s : Posting T} (cb : T) : Step s (.push cb) (s.push cb)
  | signalled {s : Posting T} (pushed : 0 < s.writing) : Step s .signal s.signal
  | woken {s : Posting T} {signalled : Bool} (waits : s.loop = .waiting)
      (ready : signalled = true → 0 < s.counter) :
      Step s (.wake signalled) { s with loop := .handling signalled }
  | skipped {s : Posting T} (handles : s.loop = .handling false) :
      Step s .skip { s with loop := .waiting }
  | drained {s : Posting T} (handles : s.loop = .handling true) :
      Step s .drain { s with counter := 0, loop := .drained }
  | swapped {s : Posting T} (empty : s.loop = .drained) : Step s .swap s.swap
  | called {s : Posting T} {cb : T} {pending : List T} (runs : s.loop = .running (cb :: pending)) :
      Step s (.call cb) { s with loop := .running pending }
  | done {s : Posting T} (runs : s.loop = .running []) : Step s .back { s with loop := .waiting }

/-- The callback that a step has posted. -/
def Action.posts : Action T → Option T
  | .push cb => some cb
  | _ => none

/-- The callback that a step has run. -/
def Action.runs : Action T → Option T
  | .call cb => some cb
  | _ => none

/-- The callbacks that were posted, in order. -/
def accepted (actions : List (Action T)) : List T := actions.filterMap Action.posts

/-- The callbacks that were run, in order. -/
def ran (actions : List (Action T)) : List T := actions.filterMap Action.runs

/-- The steps that are neither a call of `post` nor a batch without the event descriptor. -/
def Action.internal : Action T → Bool
  | .push _ | .wake false => false
  | _ => true

/-- Nothing is left to do but batches without the event descriptor. -/
def Quiet (s : Posting T) : Prop := ∀ action s', Step s action s' → action.internal = false

end Posting

end FastGraph
