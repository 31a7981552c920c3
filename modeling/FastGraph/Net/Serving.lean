import FastGraph.Net.Connections
import FastGraph.Net.Start

/-!
# The server at work

The table of connections over the engines, with the two timers. Each command that is dispatched
meets an `Env` of its own, the next one of a sequence.
-/

namespace FastGraph

namespace Server

variable {σ ε : Type}

/-- What happens to a server: descriptors to accept, a descriptor that is ready, the timer of
`schedule_tick` (`server.cpp:151-156`) and that of the snapshots (`:31-35`). -/
inductive Occurrence where
  | acceptable (fds : List Int)
  | io (fd : Int) (ev : IoEvent)
  | tick (now : Int)
  | snapshot (env : Env)

section
variable {W D : Type} (lib : FloatLib W D)

/-- `kv_.tick()`. -/
def tick (now : Int) (d : Dispatcher W D) : Dispatcher W D :=
  { d with kv := (d.kv.tick now).getD d.kv }

/-- What the reactor calls back. -/
def event : Occurrence → Connections.Event (Dispatcher W D × Nat)
  | .acceptable fds => .acceptable fds
  | .io fd ev => .io fd ev
  | .tick now => .timer fun s => (tick now s.1, s.2)
  | .snapshot env => .timer fun s => (snapshot lib env s.1, s.2)

end

end Server

namespace Connections

variable {σ ε : Type} (L : PoolLayout) (malloc : Nat → Option Nat)

/-- Callbacks one after the other. -/
def run (dispatch : σ → List Bytes → Outcome ε (σ × Bytes)) (fuel : Nat) (evs : List (Event σ))
    (m : Connections σ) : Outcome ε (Connections σ) :=
  evs.foldlM (step L malloc dispatch fuel) m

/-- A server that starts with `engines` and meets the callbacks. -/
def serve (dispatch : σ → List Bytes → Outcome ε (σ × Bytes)) (fuel : Nat) (evs : List (Event σ))
    (engines : σ) : Outcome ε (Connections σ) := do
  let m ← Outcome.ofOption (start L malloc engines)
  run L malloc dispatch fuel evs m

end Connections

end FastGraph
