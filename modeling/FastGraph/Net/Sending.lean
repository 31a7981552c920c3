import FastGraph.Net.Server

/-!
# The statements of the handlers

`do_read`, `try_parse` and `do_write` (`net/server.cpp`) one statement at a time, with the bytes
that `write` has accepted on the connection and the replies that have been appended to it, and
what each call of `on_io` adds to the two.
-/

namespace FastGraph.Server
open Relation RespEncoder

/-- What `write` has not accepted yet. -/
def unsent (c : Conn) : Bytes := c.writeBuf.drop c.writeOffset

/-- The connection after `write` has accepted bytes (`server.cpp:128-132`). -/
def advance (c : Conn) (extra : Nat) : Conn :=
  let writeOffset := min (c.writeOffset + (extra + 1)) c.writeBuf.length
  if writeOffset = c.writeBuf.length then { c with writeBuf := [], writeOffset := 0 }
  else { c with writeOffset := writeOffset }

/-- The bytes that a sequence of `write`s takes from the front of the unsent ones. -/
def taken : List WriteResult → Bytes → Bytes
  | [], _ => []
  | result :: results, bytes =>
    if bytes = [] then []
    else
      match result with
      | .sent extra => bytes.take (extra + 1) ++ taken results (bytes.drop (extra + 1))
      | .again => []
      | .failed => []

section
variable {σ ε : Type} (dispatch : σ → List Bytes → Outcome ε (σ × Bytes)) (fuel : Nat)

/-- The replies that the loop of `try_parse` appends. -/
def loopReplies : Nat → Bytes → σ → List Bytes
  | 0, _, _ => []
  | fuel + 1, buf, s =>
    match RespParser.parse buf [] with
    | (.incomplete, _, _) => []
    | (.error, _, _) => [error (str "protocol error")]
    | (.complete, buf, args) =>
      match dispatch s args with
      | some (.ok (s, reply)) => reply :: loopReplies fuel buf s
      | _ => []

/-- The replies that an event appends. -/
def eventReplies (c : Conn) (ev : IoEvent) (s : σ) : List Bytes :=
  match ev.input with
  | some (chunks, .again) => loopReplies dispatch fuel (c.readBuf ++ chunks.flatten) s
  | _ => []

/-- The bytes that the writes of events take, and the replies that the events append. -/
def traffic : List IoEvent → Conn → σ → Bytes × List Bytes
  | [], _, _ => ([], [])
  | ev :: evs, c, s =>
    match onInput dispatch fuel c ev s with
    | some (.ok (_, c₁, s₁)) =>
      let (bytes, replies) := traffic evs (onOutput c₁ ev) s₁
      (taken (ev.output.getD []) (unsent c₁) ++ bytes, eventReplies dispatch fuel c ev s ++ replies)
    | _ => ([], [])

end

/-! ### Statement by statement -/

/-- A connection between two statements of its handlers, the server, the bytes that `write` has
accepted on it and the replies that have been appended to it. -/
structure Moment (σ : Type) where
  conn : Conn
  server : σ
  accepted : Bytes
  replies : List Bytes

/-- A connection that has just been accepted. -/
def Moment.start {σ : Type} (fd : Int) (s : σ) : Moment σ := ⟨Server.accepted fd, s, [], []⟩

section
variable {σ ε : Type} (dispatch : σ → List Bytes → Outcome ε (σ × Bytes))

/-- The statements of `do_read`, `try_parse` and `do_write`, in any order. -/
inductive Step : Moment σ → Moment σ → Prop where
  /-- `read` delivers bytes (`server.cpp:71-72`). -/
  | receive {m : Moment σ} (chunk : Bytes) :
      Step m { m with conn := { m.conn with readBuf := m.conn.readBuf ++ chunk } }
  /-- The end of file, or an error of `read` or `write` (`server.cpp:74`, `:77`, `:135`). -/
  | close {m : Moment σ} : Step m { m with conn := { m.conn with state := .closing } }
  /-- A call of the parser (`server.cpp:86`). -/
  | parse {m : Moment σ} {res : ParseResult} {buf : Bytes} {args : List Bytes}
      (parsed : RespParser.parse m.conn.readBuf [] = (res, buf, args)) :
      Step m { m with conn := { m.conn with readBuf := buf, args := args } }
  /-- The reply to a command (`server.cpp:117`). -/
  | reply {m : Moment σ} {s : σ} {reply : Bytes}
      (answered : dispatch m.server m.conn.args = Outcome.returned (s, reply)) :
      Step m ⟨{ m.conn with writeBuf := m.conn.writeBuf ++ reply }, s, m.accepted,
        m.replies ++ [reply]⟩
  /-- The reply to a parse error (`server.cpp:89-90`). -/
  | protocolError {m : Moment σ} :
      Step m { m with
        conn := { m.conn with
          writeBuf := m.conn.writeBuf ++ error (str "protocol error")
          state := .closing }
        replies := m.replies ++ [error (str "protocol error")] }
  /-- The end of `try_parse` (`server.cpp:119-122`). -/
  | arm {m : Moment σ} : Step m { m with conn := armWrite m.conn }
  /-- `write` accepts bytes (`server.cpp:127-132`). -/
  | write {m : Moment σ} (extra : Nat) (some_left : m.conn.writeOffset < m.conn.writeBuf.length) :
      Step m { m with
        conn := advance m.conn extra
        accepted := m.accepted ++ (unsent m.conn).take (extra + 1) }
  /-- The end of `do_write` (`server.cpp:138-141`). -/
  | await {m : Moment σ} : Step m { m with conn := awaitInput m.conn }

/-- The moments that sequences of statements lead to. -/
abbrev Steps : Moment σ → Moment σ → Prop := ReflTransGen (Step dispatch)

end

end FastGraph.Server
