import FastGraph.Misc.Bytes
import FastGraph.Misc.Outcome
import FastGraph.Misc.Steps

/-!
# The thread pool

`ThreadPool` (`thread/thread_pool.hpp`). What a thread does between taking `mutex_` and letting
go of it is one step, since no other thread gets in between; the steps of the threads come in any
order. `cv_` lets a thread go on whenever it likes, and has to when it is notified. A task is
opaque: it may call `submit` at any time of its run. That a task throws is left out, which would
end the program, and so is a thread that the system cannot create.
-/

namespace FastGraph

/-- Where a worker is in `worker_loop` (`thread_pool.hpp:49-64`). -/
inductive Worker (T : Type) where
  /-- before the mutex: at the start of a turn, or woken from the wait -/
  | locking
  /-- blocked in `cv_.wait` -/
  | waiting
  | running (task : T)
  | returned
  deriving DecidableEq, Repr

/-- A worker that waits is woken; the others go on as they are. -/
def Worker.wake {T : Type} : Worker T → Worker T
  | .waiting => .locking
  | w => w

/-- The task that a worker runs. -/
def Worker.task {T : Type} : Worker T → Option T
  | .running task => some task
  | _ => none

/-- Where the destructor is (`thread_pool.hpp:22-29`). -/
inductive Destructor where
  | uncalled
  /-- `stop_` is set and `notify_all` not yet called -/
  | notifying
  /-- as many workers are joined -/
  | joining (joined : Nat)
  deriving DecidableEq, Repr

/-- `class ThreadPool` (`thread_pool.hpp:11-72`). `notifying` counts the calls of `submit` that
have pushed their task and not yet called `notify_one`. -/
structure ThreadPool (T : Type) where
  workers : List (Worker T)
  queue : List T
  stop : Bool
  notifying : Nat
  destructor : Destructor
  deriving DecidableEq, Repr

namespace ThreadPool

variable {T : Type}

/-- The constructor (`thread_pool.hpp:13-20`), every worker before its first turn. -/
def construct (numThreads : Nat) : Outcome Bytes (ThreadPool T) :=
  if numThreads = 0 then Outcome.threw (str "need at least 1 thread")
  else Outcome.returned ⟨List.replicate numThreads .locking, [], false, 0, .uncalled⟩

/-- `ThreadPool::submit` up to the end of its scope (`thread_pool.hpp:34-39`). -/
def submit (p : ThreadPool T) (task : T) : Outcome Bytes (ThreadPool T) :=
  if p.stop then Outcome.threw (str "pool is stopped")
  else Outcome.returned { p with queue := p.queue ++ [task], notifying := p.notifying + 1 }

/-- Worker `i` goes on at `w`. -/
def goes (p : ThreadPool T) (i : Nat) (w : Worker T) : ThreadPool T :=
  { p with workers := p.workers.set i w }

/-- What `worker_loop` does under the mutex (`thread_pool.hpp:53-60`) and the task it leaves
with: the wait that its predicate decides, the return, or the pop. -/
def turn (p : ThreadPool T) (i : Nat) : ThreadPool T × Option T :=
  match p.stop, p.queue with
  | false, [] => (p.goes i .waiting, none)
  | true, [] => (p.goes i .returned, none)
  | _, task :: queue => ({ p.goes i (.running task) with queue := queue }, some task)

/-- The first scope of the destructor (`thread_pool.hpp:23-26`). -/
def beginDestroy (p : ThreadPool T) : ThreadPool T :=
  { p with stop := true, destructor := .notifying }

/-- `cv_.notify_all()` (`thread_pool.hpp:27`). -/
def notifyAll (p : ThreadPool T) : ThreadPool T :=
  { p with workers := p.workers.map Worker.wake, destructor := .joining 0 }

/-- The destructor has joined every worker. -/
def destroyed (p : ThreadPool T) : Prop := p.destructor = .joining p.workers.length

/-- What a thread does next. -/
inductive Action (T : Type) where
  | submit (task : T)
  /-- `submit` throws -/
  | refuse (task : T)
  | notifyOne
  /-- a wait ends without a notification -/
  | wake (i : Nat)
  | turn (i : Nat) (task : Option T)
  | finish (i : Nat) (task : T)
  | destroy
  | notifyAll
  | join
  deriving DecidableEq, Repr

/-- The steps of the threads. `notify_one` wakes some worker that waits, if there is one. -/
inductive Step : ThreadPool T → Action T → ThreadPool T → Prop where
  | submitted {p p' : ThreadPool T} {task : T} (pushed : p.submit task = Outcome.returned p') :
    Step p (.submit task) p'
  | refused {p : ThreadPool T} {task : T} {what : Bytes} (thrown : p.submit task = Outcome.threw what) :
    Step p (.refuse task) p
  | notifiedOne {p : ThreadPool T} {n i : Nat} (called : p.notifying = n + 1)
      (waits : p.workers[i]? = some .waiting) :
    Step p .notifyOne { p.goes i .locking with notifying := n }
  | notifiedNone {p : ThreadPool T} {n : Nat} (called : p.notifying = n + 1)
      (nobody : Worker.waiting ∉ p.workers) :
    Step p .notifyOne { p with notifying := n }
  | woken {p : ThreadPool T} {i : Nat} (waits : p.workers[i]? = some .waiting) :
    Step p (.wake i) (p.goes i .locking)
  | turned {p : ThreadPool T} {i : Nat} (locks : p.workers[i]? = some .locking) :
    Step p (.turn i (p.turn i).2) (p.turn i).1
  | finished {p : ThreadPool T} {i : Nat} {task : T} (runs : p.workers[i]? = some (.running task)) :
    Step p (.finish i task) (p.goes i .locking)
  | destroying {p : ThreadPool T} (uncalled : p.destructor = .uncalled) :
    Step p .destroy p.beginDestroy
  | notifiedAll {p : ThreadPool T} (notifying : p.destructor = .notifying) :
    Step p .notifyAll p.notifyAll
  | joined {p : ThreadPool T} {k : Nat} (joining : p.destructor = .joining k)
      (ended : p.workers[k]? = some .returned) :
    Step p .join { p with destructor := .joining (k + 1) }

/-- The task that a call of `submit` has pushed. -/
def Action.pushed : Action T → Option T
  | .submit task => some task
  | _ => none

/-- The task that a worker has popped. -/
def Action.popped : Action T → Option T
  | .turn _ task => task
  | _ => none

/-- The task that has run to its end. -/
def Action.done : Action T → Option T
  | .finish _ task => some task
  | _ => none

/-- The tasks that `submit` has taken, in order. -/
def accepted (actions : List (Action T)) : List T := actions.filterMap Action.pushed

/-- The tasks that a worker has begun to run, in order. -/
def begun (actions : List (Action T)) : List T := actions.filterMap Action.popped

/-- The tasks that have run to their end, in order. -/
def ended (actions : List (Action T)) : List T := actions.filterMap Action.done

/-- The tasks that run. -/
def runningTasks (p : ThreadPool T) : List T := p.workers.filterMap Worker.task

/-- The steps that the pool takes by itself: neither a call of `submit` nor of the destructor. -/
def Action.internal : Action T → Bool
  | .submit _ | .refuse _ | .destroy => false
  | _ => true

/-- Nothing is left to do but waits that end without a notification. -/
def Quiet (p : ThreadPool T) : Prop :=
  ∀ action p', Step p action p' → action.internal = true → ∃ i, action = .wake i

end ThreadPool

end FastGraph
