import FastGraph.Misc.Alike
import FastGraph.Net.Connections

/-!
# Servers over dispatchers that do alike

What the server does with its connections depends on the dispatcher by its replies only. Over two
dispatchers that answer alike, the same events lead to the same connections, byte for byte.
-/

namespace FastGraph

variable {σ τ ε : Type} {R : σ → τ → Prop}
  {dispatch : σ → List Bytes → Outcome ε (σ × Bytes)}
  {dispatch' : τ → List Bytes → Outcome ε (τ × Bytes)} {s : σ} {t : τ} {fuel : Nat}

namespace Server

end Server

namespace Connections

variable {L : PoolLayout} {malloc : Nat → Option Nat} {m : Connections σ} {n : Connections τ}

/-- Callbacks that are the same, but for what the timers do to related engines. -/
inductive Event.Alike (R : σ → τ → Prop) : Event σ → Event τ → Prop where
  | acceptable (fds : List Int) : Event.Alike R (.acceptable fds) (.acceptable fds)
  | io (fd : Int) (ev : Server.IoEvent) : Event.Alike R (.io fd ev) (.io fd ev)
  | timer {f : σ → σ} {g : τ → τ} (same : ∀ s t, R s t → R (f s) (g t)) :
    Event.Alike R (.timer f) (.timer g)

end Connections

end FastGraph
