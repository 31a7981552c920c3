import FastGraph.Net.Connections

/-!
# The reactor

`Reactor` (`net/reactor.hpp`) with the server on it: `poll` takes up to 64 events from
`epoll_wait` and calls the handler of each descriptor, and the handlers of the server accept
connections and close them while the other events of the batch still wait. A descriptor that is
closed may be the next one that `accept` returns.
-/

namespace FastGraph

/-- `handlers_` (`reactor.hpp:134`) and the descriptors that the epoll instance watches. -/
structure Reactor (η : Type) where
  eventFd : Int
  handlers : UnorderedMap Int η
  watched : List Int

namespace Reactor
variable {η : Type}

/-- `Reactor::Reactor` (`reactor.hpp:28-40`). -/
def construct (eventFd : Int) : Reactor η := ⟨eventFd, ∅, [eventFd]⟩

/-- `Reactor::add` (`reactor.hpp:48-54`). `EPOLL_CTL_ADD` of a watched descriptor fails. -/
def add (r : Reactor η) (fd : Int) (h : η) : Reactor η :=
  { r with
    handlers := r.handlers.set fd h
    watched := if fd ∈ r.watched then r.watched else fd :: r.watched }

/-- `Reactor::remove` (`reactor.hpp:63-66`). -/
def remove (r : Reactor η) (fd : Int) : Reactor η :=
  { r with handlers := r.handlers.erase fd, watched := r.watched.erase fd }

end Reactor

/-- What the server gives to `Reactor::add`: the lambda of `start` (`server.cpp:23-25`) or that of
`on_accept` (`:52-54`). -/
inductive EventLoop.Callback where
  | onAccept
  | onIo
  deriving DecidableEq, Repr

/-- The server on its reactor, and the descriptors of connections that the process has open. -/
structure EventLoop (σ : Type) where
  listenFd : Int
  reactor : Reactor EventLoop.Callback
  server : Connections σ
  opened : List Int

namespace EventLoop

variable {σ ε : Type} (L : PoolLayout) (malloc : Nat → Option Nat)

/-- `Server::Server` and the registration of `start` (`server.cpp:11-25`). -/
def start (eventFd listenFd : Int) (engines : σ) : Option (EventLoop σ) := do
  let server ← Connections.start L malloc engines
  some ⟨listenFd, (Reactor.construct eventFd).add listenFd .onAccept, server, []⟩

/-- One turn of the loop of `Server::on_accept` (`server.cpp:43-54`). -/
def accept (m : EventLoop σ) (fd : Int) : Outcome ε (EventLoop σ) := do
  let server ← m.server.accept L malloc fd
  pure { m with reactor := m.reactor.add fd .onIo, server := server, opened := fd :: m.opened }

/-- `Server::close_conn` (`server.cpp:144-149`). -/
def closeConn (m : EventLoop σ) (c : Nat) : Outcome ε (EventLoop σ) := do
  let conn ← m.server.deref c
  let server ← m.server.closeConn c
  pure { m with
    reactor := m.reactor.remove conn.fd
    server := server
    opened := m.opened.erase conn.fd }

/-- `Server::on_io` (`server.cpp:58-65`). -/
def onIo (dispatch : σ → List Bytes → Outcome ε (σ × Bytes)) (fuel : Nat) (fd : Int)
    (ev : Server.IoEvent) (m : EventLoop σ) : Outcome ε (EventLoop σ) :=
  match m.server.conns.find fd with
  | none => pure m
  | some c => do
    let conn ← m.server.deref c
    let (_, conn, engines) ← Server.onInput dispatch fuel conn ev m.server.engines
    let conn := Server.onOutput conn ev
    let m := { m with
      server := { m.server with pool := m.server.pool.write c conn, engines := engines } }
    if conn.state = .closing then m.closeConn c else pure m

/-- An event of a batch: its descriptor, what `accept` returns before it fails if the event is for
the listening socket, and what the reads and writes meet if it is for a connection. -/
structure Ready where
  fd : Int
  accepted : List Int
  io : Server.IoEvent
  deriving DecidableEq, Repr

/-- The loop of `Reactor::poll` on one event (`reactor.hpp:84-103`). Nothing in the server posts, so
there is nothing to run for the event descriptor. -/
def call (dispatch : σ → List Bytes → Outcome ε (σ × Bytes)) (fuel : Nat) (m : EventLoop σ)
    (e : Ready) : Outcome ε (EventLoop σ) :=
  if e.fd = m.reactor.eventFd then pure m
  else
    match m.reactor.handlers.find e.fd with
    | none => pure m
    | some .onAccept => e.accepted.foldlM (accept L malloc) m
    | some .onIo => onIo dispatch fuel e.fd e.io m

/-- The kernel does not hand out a descriptor that is open. -/
def Unused (m : EventLoop σ) (fd : Int) : Prop :=
  fd ∉ m.opened ∧ fd ≠ m.listenFd ∧ fd ≠ m.reactor.eventFd

/-- The descriptors that `accept` may return one after the other. -/
def Acceptable (m : EventLoop σ) (fds : List Int) : Prop := fds.Nodup ∧ ∀ fd ∈ fds, m.Unused fd

/-- The events of a batch are handled one after the other. -/
inductive Calls (dispatch : σ → List Bytes → Outcome ε (σ × Bytes)) (fuel : Nat) :
    EventLoop σ → List Ready → EventLoop σ → Prop where
  | nil {m : EventLoop σ} : Calls dispatch fuel m [] m
  | cons {m m₁ m' : EventLoop σ} {e : Ready} {es : List Ready} (acceptable : m.Acceptable e.accepted)
      (called : call L malloc dispatch fuel m e = Outcome.returned m₁)
      (later : Calls dispatch fuel m₁ es m') : Calls dispatch fuel m (e :: es) m'

/-- What `epoll_wait` may return: watched descriptors, each once. -/
def Batch (m : EventLoop σ) (es : List Ready) : Prop :=
  (es.map Ready.fd).Nodup ∧ ∀ e ∈ es, e.fd ∈ m.reactor.watched

/-- `fire_timers`: the timers of the server change the engines (`server.cpp:31-35`, `:151-156`). -/
def fired (f : σ → σ) (m : EventLoop σ) : EventLoop σ :=
  { m with server := { m.server with engines := f m.server.engines } }

/-- What turns of `Reactor::run` lead to from a start (`reactor.hpp:116`, `:72-105`). -/
inductive Runs (dispatch : σ → List Bytes → Outcome ε (σ × Bytes)) (fuel : Nat) :
    EventLoop σ → Prop where
  | started {m : EventLoop σ} {eventFd listenFd : Int} {engines : σ} (apart : listenFd ≠ eventFd)
      (made : start L malloc eventFd listenFd engines = some m) : Runs dispatch fuel m
  | polled {m m' : EventLoop σ} {es : List Ready} (runs : Runs dispatch fuel m) (f : σ → σ)
      (batch : m.Batch es) (calls : Calls L malloc dispatch fuel (fired f m) es m') :
      Runs dispatch fuel m'

end EventLoop

end FastGraph
