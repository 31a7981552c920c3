import FastGraph.Memory.PoolAllocator
import FastGraph.Net.Server

/-!
# The table of connections

`Server::on_accept`, `on_io` and `close_conn` (`net/server.cpp`) with the table `conns_` and the
pool that the `Conn` objects are made in. The descriptors that `accept` returns and what the
reads and writes meet are arbitrary, and so is what the timers do to the engines.
-/

namespace FastGraph

/-- What `Server` holds of its connections, `conn_pool_` and `conns_`, and its engines. -/
structure Connections (σ : Type) where
  pool : PoolAllocator Conn
  conns : UnorderedMap Int Nat
  engines : σ

namespace Connections

variable {σ ε : Type} (L : PoolLayout) (malloc : Nat → Option Nat)

/-- A server that has accepted nothing yet. -/
def start (engines : σ) : Option (Connections σ) := do
  let pool ← PoolAllocator.construct L malloc
  some ⟨pool, ∅, engines⟩

/-- One turn of the loop of `Server::on_accept` (`server.cpp:43-54`). -/
def accept (m : Connections σ) (fd : Int) : Outcome ε (Connections σ) := do
  let (pool, c) ← Outcome.ofOption (m.pool.make L malloc (Server.accepted fd))
  pure { m with pool := pool, conns := m.conns.set fd c }

/-- `Server::on_accept` (`server.cpp:41-56`), for the descriptors that `accept` returns before
it fails. -/
def onAccept (fds : List Int) (m : Connections σ) : Outcome ε (Connections σ) :=
  fds.foldlM (accept L malloc) m

/-- `*c`, for a `Conn* c`. -/
def deref (m : Connections σ) (c : Nat) : Outcome ε Conn := Outcome.ofOption (m.pool.read c)

/-- `Server::close_conn` (`server.cpp:144-149`). -/
def closeConn (m : Connections σ) (c : Nat) : Outcome ε (Connections σ) := do
  let conn ← m.deref c
  pure { m with conns := m.conns.erase conn.fd, pool := m.pool.destroy c }

/-- `Server::on_io` (`server.cpp:58-65`). -/
def onIo (dispatch : σ → List Bytes → Outcome ε (σ × Bytes)) (fuel : Nat) (fd : Int)
    (ev : Server.IoEvent) (m : Connections σ) : Outcome ε (Connections σ) :=
  match m.conns.find fd with
  | none => pure m
  | some c => do
    let conn ← m.deref c
    let (_, conn, engines) ← Server.onInput dispatch fuel conn ev m.engines
    let conn := Server.onOutput conn ev
    let m := { m with pool := m.pool.write c conn, engines := engines }
    if conn.state = .closing then m.closeConn c else pure m

/-- What the reactor calls back. -/
inductive Event (σ : Type) where
  | acceptable (fds : List Int)
  | io (fd : Int) (ev : Server.IoEvent)
  | timer (f : σ → σ)

/-- One callback. -/
def step (dispatch : σ → List Bytes → Outcome ε (σ × Bytes)) (fuel : Nat) (m : Connections σ) :
    Event σ → Outcome ε (Connections σ)
  | .acceptable fds => onAccept L malloc fds m
  | .io fd ev => onIo dispatch fuel fd ev m
  | .timer f => pure { m with engines := f m.engines }

/-- What the callbacks lead to from a start, whatever the events are. -/
inductive Runs (dispatch : σ → List Bytes → Outcome ε (σ × Bytes)) (fuel : Nat) :
    Connections σ → Prop where
  | started {m : Connections σ} {engines : σ} (made : start L malloc engines = some m) :
    Runs dispatch fuel m
  | stepped {m m' : Connections σ} (runs : Runs dispatch fuel m) (ev : Event σ)
      (returned : step L malloc dispatch fuel m ev = Outcome.returned m') : Runs dispatch fuel m'

end Connections

end FastGraph
