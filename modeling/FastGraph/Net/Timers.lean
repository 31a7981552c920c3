import FastGraph.Misc.Bytes
import FastGraph.Misc.Steps

/-!
# The timers of the reactor

`timers_` of `Reactor` (`net/reactor.hpp`), a priority queue by the time a timer is due; of timers
that are due at the same time any may be on top. The clock never goes back, and is read by
`fire_timers`, by `add_timer` and by `poll`. Times are nanoseconds, delays milliseconds.
-/

namespace FastGraph

/-- `struct Timer` (`reactor.hpp:18-23`), `due` for `when`. -/
structure Timer (κ : Type) where
  due : Int
  cb : κ
  deriving DecidableEq, Repr

/-- `timers_`, and the last reading of the clock. -/
structure Timers (κ : Type) where
  clock : Int
  queue : List (Timer κ)
  deriving DecidableEq, Repr

namespace Timers

variable {κ : Type}

/-- The nanoseconds of a millisecond. -/
def ms : Int := 1000000

/-- `Reactor::add_timer` (`reactor.hpp:68-70`). -/
def addTimer (s : Timers κ) (reading delayMs : Int) (cb : κ) : Timers κ :=
  ⟨reading, ⟨reading + delayMs * ms, cb⟩ :: s.queue⟩

/-- Timers are added one after the other. -/
inductive Adds : Timers κ → List (Int × κ) → Timers κ → Prop where
  | nil {s : Timers κ} : Adds s [] s
  | cons {s s' : Timers κ} {reading delayMs : Int} {cb : κ} {more : List (Int × κ)}
      (later : s.clock ≤ reading) (rest : Adds (s.addTimer reading delayMs cb) more s') :
      Adds s ((delayMs, cb) :: more) s'

/-- One turn of the loop of `fire_timers` (`reactor.hpp:122-126`), for callbacks that add the
timers of `body`. -/
inductive Fire (body : κ → List (Int × κ)) (now : Int) : Timers κ → Timer κ → Timers κ → Prop where
  | fire {s s' : Timers κ} {t : Timer κ} {rest : List (Timer κ)} (perm : s.queue.Perm (t :: rest))
      (first : ∀ u ∈ rest, t.due ≤ u.due) (due : t.due ≤ now)
      (added : Adds { s with queue := rest } (body t.cb) s') : Fire body now s t s'

/-- The timers that are due. -/
def due (now : Int) (queue : List (Timer κ)) : List (Timer κ) :=
  queue.filter fun t => decide (t.due ≤ now)

/-- What `poll` gives to `epoll_wait` (`reactor.hpp:73-81`), called without an argument as in `run`. -/
def pollTimeout (s : Timers κ) (reading : Int) : Int :=
  match (s.queue.map Timer.due).min? with
  | none => -1
  | some due => toInt32 (max 0 (Int.tdiv (due - reading) ms))

/-! ### The timers of the server -/

/-- The callbacks that the server gives to `add_timer` (`server.cpp:31-35`, `:151-156`). -/
inductive Job where
  | tick
  | snapshot
  deriving DecidableEq, Repr

/-- The delay of a job, for a snapshot interval in milliseconds. -/
def Job.delay (interval : Int) : Job → Int
  | .tick => 100
  | .snapshot => interval

/-- Each job adds itself again. -/
def jobs (interval : Int) (j : Job) : List (Int × Job) := [(j.delay interval, j)]

/-- What `Server::start` and turns of `Reactor::run` lead to (`server.cpp:27-38`,
`reactor.hpp:116`), with the jobs that have run and the readings of `fire_timers` they ran at. -/
inductive Runs (interval : Int) : List (Int × Job) → Timers Job → Prop where
  | started {clock : Int} {s : Timers Job}
      (added : Adds ⟨clock, []⟩ [(Job.tick.delay interval, .tick),
        (Job.snapshot.delay interval, .snapshot)] s) : Runs interval [] s
  | fired {log : List (Int × Job)} {s s' : Timers Job} {ts : List (Timer Job)} {now : Int}
      (runs : Runs interval log s) (later : s.clock ≤ now)
      (steps : Steps (Fire (jobs interval) now) { s with clock := now } ts s')
      (done : due now s'.queue = []) : Runs interval (log ++ ts.map fun t => (now, t.cb)) s'
  | waited {log : List (Int × Job)} {s : Timers Job} {reading : Int} (runs : Runs interval log s)
      (later : s.clock ≤ reading) : Runs interval log { s with clock := reading }

end Timers

end FastGraph
