import FastGraph.Misc.Outcome
import FastGraph.Protocol.Encoder
import FastGraph.Protocol.Resp

/-!
# Connections

`Conn` (`net/conn.hpp`) and the parse loop of `Server` (`net/server.cpp`). The command
dispatcher is a parameter: a call on the server state that returns the new state and the
reply, throws, or does not return. Nothing in `try_parse` catches, so an exception or a
call that does not return is the outcome of the whole loop.
-/

namespace FastGraph

/-- `enum class ConnState` (`conn.hpp:5`). -/
inductive ConnState where
  | reading
  | writing
  | closing
  deriving DecidableEq, Repr

/-- The events the reactor waits for on a descriptor. -/
inductive EpollEvents where
  | input
  | inputOutput
  deriving DecidableEq, Repr

/-- `struct Conn` (`conn.hpp:7-16`), with the event mask the reactor holds for `fd`. -/
structure Conn where
  fd : Int
  state : ConnState
  readBuf : Bytes
  writeBuf : Bytes
  writeOffset : Nat
  args : List Bytes
  events : EpollEvents
  deriving DecidableEq, Repr

namespace Server

variable {σ ε : Type}

/-- The loop of `Server::try_parse` (`server.cpp:84-118`), for at most `fuel` iterations:
the parse result that left it, the connection and the server state. -/
def tryParseLoop (dispatch : σ → List Bytes → Outcome ε (σ × Bytes)) :
    Nat → Conn → σ → Outcome ε (ParseResult × Conn × σ)
  | 0, _, _ => Outcome.stuck
  | fuel + 1, c, s =>
    match RespParser.parse c.readBuf [] with
    | (.incomplete, buf, args) => pure (.incomplete, { c with readBuf := buf, args := args }, s)
    | (.error, buf, args) =>
      pure (.error, { c with
        readBuf := buf
        args := args
        writeBuf := c.writeBuf ++ RespEncoder.error (str "protocol error")
        state := .closing }, s)
    | (.complete, buf, args) => do
      let (s, reply) ← dispatch s args
      tryParseLoop dispatch fuel
        { c with readBuf := buf, args := args, writeBuf := c.writeBuf ++ reply } s

/-- The end of `Server::try_parse` (`server.cpp:119-122`): unsent bytes make the connection
a writing one, whatever its state was. -/
def armWrite (c : Conn) : Conn :=
  if c.writeOffset < c.writeBuf.length then { c with state := .writing, events := .inputOutput }
  else c

/-- `Server::try_parse` (`server.cpp:83-123`), with the parse result that left the loop. -/
def tryParse (dispatch : σ → List Bytes → Outcome ε (σ × Bytes)) (fuel : Nat) (c : Conn) (s : σ) :
    Outcome ε (ParseResult × Conn × σ) := do
  let (res, c, s) ← tryParseLoop dispatch fuel c s
  pure (res, armWrite c, s)

/-- The chunks of a stream arriving one by one, `try_parse` running after each: the parse
results that left the loops, the connection and the server state. -/
def feed (dispatch : σ → List Bytes → Outcome ε (σ × Bytes)) (fuel : Nat) :
    List Bytes → Conn → σ → Outcome ε (List ParseResult × Conn × σ)
  | [], c, s => pure ([], c, s)
  | chunk :: chunks, c, s => do
    let (res, c, s) ← tryParse dispatch fuel { c with readBuf := c.readBuf ++ chunk } s
    let (results, c, s) ← feed dispatch fuel chunks c s
    pure (res :: results, c, s)

/-! ### Events on a connection -/

/-- How the reads of one `do_read` end: nothing is left for now, or the peer has closed or the
read failed. -/
inductive ReadEnd where
  | again
  | gone
  deriving DecidableEq, Repr

/-- What one `write` does: it sends a positive number of bytes, `extra` more than one or all
that are left, or it would block, or it fails. -/
inductive WriteResult where
  | sent (extra : Nat)
  | again
  | failed
  deriving DecidableEq, Repr

/-- What a call of `on_io` meets: the reads if the descriptor is readable, and the writes if it
is writable. -/
structure IoEvent where
  input : Option (List Bytes × ReadEnd)
  output : Option (List WriteResult)
  deriving DecidableEq, Repr

/-- `Server::do_read` (`server.cpp:67-81`), with the parse result that left the loop, if
`try_parse` ran. -/
def doRead (dispatch : σ → List Bytes → Outcome ε (σ × Bytes)) (fuel : Nat) (c : Conn)
    (reads : List Bytes × ReadEnd) (s : σ) : Outcome ε (Option ParseResult × Conn × σ) :=
  let c := { c with readBuf := c.readBuf ++ reads.1.flatten }
  match reads.2 with
  | .gone => pure (none, { c with state := .closing }, s)
  | .again => do
    let (res, c, s) ← tryParse dispatch fuel c s
    pure (some res, c, s)

/-- The end of `Server::do_write` (`server.cpp:138-141`). -/
def awaitInput (c : Conn) : Conn :=
  if c.state ≠ .closing then { c with state := .reading, events := .input } else c

/-- `Server::do_write` (`server.cpp:125-142`). A `write` that the list does not reach would
block. -/
def doWrite : List WriteResult → Conn → Conn
  | [], c => if c.writeOffset < c.writeBuf.length then c else awaitInput c
  | result :: results, c =>
    if c.writeOffset < c.writeBuf.length then
      match result with
      | .sent extra =>
        let writeOffset := min (c.writeOffset + (extra + 1)) c.writeBuf.length
        if writeOffset = c.writeBuf.length then
          doWrite results { c with writeBuf := [], writeOffset := 0 }
        else doWrite results { c with writeOffset := writeOffset }
      | .again => c
      | .failed => { c with state := .closing }
    else awaitInput c

/-- The part of `on_io` for a readable descriptor. -/
def onInput (dispatch : σ → List Bytes → Outcome ε (σ × Bytes)) (fuel : Nat) (c : Conn)
    (ev : IoEvent) (s : σ) : Outcome ε (Option ParseResult × Conn × σ) :=
  match ev.input with
  | some reads => doRead dispatch fuel c reads s
  | none => pure (none, c, s)

/-- The part of `on_io` for a writable descriptor. -/
def onOutput (c : Conn) (ev : IoEvent) : Conn :=
  match ev.output with
  | some results => doWrite results c
  | none => c

/-- `Server::on_io` (`server.cpp:58-65`): a connection that ends up closing is removed. -/
def onIo (dispatch : σ → List Bytes → Outcome ε (σ × Bytes)) (fuel : Nat) (c : Conn)
    (ev : IoEvent) (s : σ) : Outcome ε (Option Conn × σ) := do
  let (_, c, s) ← onInput dispatch fuel c ev s
  let c := onOutput c ev
  pure (if c.state = .closing then none else some c, s)

/-- `on_io` called for one event after the other until the connection is removed. -/
def ioRun (dispatch : σ → List Bytes → Outcome ε (σ × Bytes)) (fuel : Nat) :
    List IoEvent → Conn → σ → Outcome ε (Option Conn × σ)
  | [], c, s => pure (some c, s)
  | ev :: evs, c, s => do
    let (left, s) ← onIo dispatch fuel c ev s
    match left with
    | some c => ioRun dispatch fuel evs c s
    | none => pure (none, s)

/-- The connection that `on_accept` makes (`server.cpp:49-54`). -/
def accepted (fd : Int) : Conn := ⟨fd, .reading, [], [], 0, [], .input⟩

/-- Commands dispatched once each and in order: the final state and the joined replies. -/
def dispatchAll (dispatch : σ → List Bytes → Outcome ε (σ × Bytes)) :
    List (List Bytes) → σ → Outcome ε (σ × Bytes)
  | [], s => pure (s, [])
  | args :: rest, s => do
    let (s, reply) ← dispatch s args
    let (s, replies) ← dispatchAll dispatch rest s
    pure (s, reply ++ replies)

end Server

end FastGraph
