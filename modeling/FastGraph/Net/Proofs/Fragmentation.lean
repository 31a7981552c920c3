import FastGraph.Net.Server
import FastGraph.Protocol.Proofs.ArrayRoundTrip

/-!
# Fragmented command streams

However the stream of encoded commands is cut into reads, the parse loop dispatches the
commands once each and in order. Between two reads the buffer holds a proper prefix of
the next command, or nothing after the last one; that is the invariant of `feed`.
-/

namespace FastGraph.Server
open RespEncoder RespParser

variable {σ ε : Type} (dispatch : σ → List Bytes → Outcome ε (σ × Bytes))

theorem dispatchAll_append (xs ys : List (List Bytes)) (s : σ) :
    dispatchAll dispatch (xs ++ ys) s = (do
      let (s, first) ← dispatchAll dispatch xs s
      let (s, second) ← dispatchAll dispatch ys s
      pure (s, first ++ second)) := by
  induction xs generalizing s with
  | nil =>
    simp only [List.nil_append, dispatchAll, Outcome.pure_eq, Outcome.returned_bind]
    rcases Outcome.cases (dispatchAll dispatch ys s) with h | ⟨e, h⟩ | ⟨⟨s', r⟩, h⟩ <;> simp [h]
  | cons args xs ih =>
    simp only [List.cons_append, dispatchAll]
    rcases Outcome.cases (dispatch s args) with h | ⟨e, h⟩ | ⟨⟨s', r⟩, h⟩
    · simp [h]
    · simp [h]
    · simp only [h, Outcome.returned_bind, ih]
      rcases Outcome.cases (dispatchAll dispatch xs s') with h | ⟨e, h⟩ | ⟨⟨s₁, r₁⟩, h⟩
      · simp [h]
      · simp [h]
      · simp only [h, Outcome.returned_bind, Outcome.pure_eq]
        rcases Outcome.cases (dispatchAll dispatch ys s₁) with h | ⟨e, h⟩ | ⟨⟨s₂, r₂⟩, h⟩ <;>
          simp [h]

/-- Each command of a short stream is short. -/
theorem small_of_stream {cmds : List (List Bytes)} (small : (cmds.flatMap array).length < 2 ^ 31) :
    ∀ args ∈ cmds, (array args).length < 2 ^ 31 := by
  intro args mem
  obtain ⟨before, after, rfl⟩ := List.append_of_mem mem
  rw [List.flatMap_append, List.flatMap_cons, List.length_append, List.length_append] at small
  omega

/-- The parser waits on what is left of a stream after its whole commands. -/
theorem parse_partialFrame {cmds : List (List Bytes)} {q : Bytes}
    (nonempty : ∀ args ∈ cmds, args ≠ []) (small : ∀ args ∈ cmds, (array args).length < 2 ^ 31)
    (left : PartialFrame array cmds q) : parse q [] = (.incomplete, q, []) := by
  rcases left with ⟨-, rfl⟩ | ⟨args, rest, rfl, inFrame, short⟩
  · rfl
  · exact parse_array_cut [] (nonempty args (by simp)) (small args (by simp)) inFrame short

/-- One run of the parse loop: the whole commands in the buffer are dispatched, and what is
left of the next one stays. -/
theorem tryParseLoop_commands (whole rest : List (List Bytes)) {q : Bytes} {fuel : Nat}
    (c : Conn) (s : σ) (enough : whole.length < fuel)
    (nonempty : ∀ args ∈ whole ++ rest, args ≠ [])
    (small : ∀ args ∈ whole ++ rest, (array args).length < 2 ^ 31) (left : PartialFrame array rest q)
    (buffer : c.readBuf = whole.flatMap array ++ q) :
    tryParseLoop dispatch fuel c s = (do
      let (s, replies) ← dispatchAll dispatch whole s
      pure (.incomplete,
        { c with readBuf := q, args := [], writeBuf := c.writeBuf ++ replies }, s)) := by
  induction whole generalizing c s fuel with
  | nil =>
    obtain ⟨fuel, rfl⟩ : ∃ f, fuel = f + 1 := ⟨fuel - 1, by simp at enough; omega⟩
    have waits := parse_partialFrame nonempty small left
    simp only [List.flatMap_nil, List.nil_append] at buffer
    simp [tryParseLoop, buffer, waits, dispatchAll]
  | cons args whole ih =>
    obtain ⟨fuel, rfl⟩ : ∃ f, fuel = f + 1 := ⟨fuel - 1, by simp at enough; omega⟩
    have view : c.readBuf = array args ++ (whole.flatMap array ++ q) := by
      rw [buffer, List.flatMap_cons, List.append_assoc]
    have complete : parse c.readBuf [] = (.complete, whole.flatMap array ++ q, args) := by
      rw [view]
      exact parse_array_append _ _ (nonempty args (by simp)) (small args (by simp))
    simp only [tryParseLoop, complete, dispatchAll]
    rcases Outcome.cases (dispatch s args) with h | ⟨e, h⟩ | ⟨⟨s', reply⟩, h⟩
    · simp [h]
    · simp [h]
    · simp only [h, Outcome.returned_bind]
      rw [ih _ _ (by simp at enough; omega) (fun a ha => nonempty a (List.mem_cons_of_mem _ ha))
        (fun a ha => small a (List.mem_cons_of_mem _ ha)) rfl]
      rcases Outcome.cases (dispatchAll dispatch whole s') with h | ⟨e, h⟩ | ⟨⟨s₁, r₁⟩, h⟩ <;>
        simp [h]

/-- How a run of `feed` over `chunks` answers `all`, the commands of the stream dispatched
once each and in order from the same state: it does not return or throws where that does
not return or throws, and otherwise it ends in the same state, with every parse loop left
waiting for more bytes, nothing in the read buffer and exactly the replies to send. -/
def Delivered (c : Conn) (chunks : List Bytes) (all : Outcome ε (σ × Bytes))
    (fed : Outcome ε (List ParseResult × Conn × σ)) : Prop :=
  match all.run with
  | none => fed = Outcome.stuck
  | some (.error e) => fed = Outcome.threw e
  | some (.ok (s, replies)) => ∃ c' : Conn,
      fed = Outcome.returned (List.replicate chunks.length .incomplete, c', s) ∧
      c'.readBuf = [] ∧ c'.writeBuf = c.writeBuf ++ replies ∧ c'.state ≠ .closing

theorem armWrite_readBuf (c : Conn) : (armWrite c).readBuf = c.readBuf := by
  unfold armWrite; split <;> rfl

theorem armWrite_writeBuf (c : Conn) : (armWrite c).writeBuf = c.writeBuf := by
  unfold armWrite; split <;> rfl

theorem armWrite_state {c : Conn} (h : c.state ≠ .closing) : (armWrite c).state ≠ .closing := by
  unfold armWrite
  split
  · simp
  · exact h

theorem feed_delivered (chunks : List Bytes) (cmds : List (List Bytes)) {fuel : Nat}
    (c : Conn) (s : σ) (enough : cmds.length < fuel) (nonempty : ∀ args ∈ cmds, args ≠ [])
    (small : ∀ args ∈ cmds, (array args).length < 2 ^ 31) (left : PartialFrame array cmds c.readBuf)
    (stream : c.readBuf ++ chunks.flatten = cmds.flatMap array) (live : c.state ≠ .closing) :
    Delivered c chunks (dispatchAll dispatch cmds s) (feed dispatch fuel chunks c s) := by
  induction chunks generalizing c s cmds with
  | nil =>
    obtain ⟨rfl, empty⟩ := left.eq_nil (by simpa using stream)
    exact ⟨c, rfl, empty, by simp, live⟩
  | cons chunk chunks ih =>
    have pre : c.readBuf ++ chunk <+: cmds.flatMap array := by
      rw [← stream, List.flatten_cons, ← List.append_assoc]
      exact List.prefix_append _ _
    obtain ⟨whole, rest, q, rfl, view, left'⟩ := prefix_flatMap_split array cmds pre
    have stream' : q ++ chunks.flatten = rest.flatMap array := by
      have same : whole.flatMap array ++ (q ++ chunks.flatten) =
          whole.flatMap array ++ rest.flatMap array := by
        rw [← List.append_assoc, ← view, ← List.flatMap_append, ← stream, List.flatten_cons,
          List.append_assoc]
      exact List.append_cancel_left same
    rw [List.length_append] at enough
    have wholeEnough : whole.length < fuel := by omega
    have restEnough : rest.length < fuel := by omega
    have loop := tryParseLoop_commands dispatch whole rest { c with readBuf := c.readBuf ++ chunk } s
      wholeEnough nonempty small left' view
    have restNonempty : ∀ args ∈ rest, args ≠ [] := fun a ha => nonempty a (by simp [ha])
    have restSmall : ∀ args ∈ rest, (array args).length < 2 ^ 31 :=
      fun a ha => small a (by simp [ha])
    rw [dispatchAll_append, feed, tryParse, loop]
    rcases Outcome.cases (dispatchAll dispatch whole s) with h | ⟨e, h⟩ | ⟨⟨s₁, r₁⟩, h⟩
    · simp only [h, Outcome.stuck_bind]
      rfl
    · simp only [h, Outcome.threw_bind]
      rfl
    · simp only [h, Outcome.returned_bind, Outcome.pure_eq]
      generalize settled : armWrite { c with
        readBuf := q, args := [], writeBuf := c.writeBuf ++ r₁ } = c₁
      have read₁ : c₁.readBuf = q := by rw [← settled, armWrite_readBuf]
      have write₁ : c₁.writeBuf = c.writeBuf ++ r₁ := by rw [← settled, armWrite_writeBuf]
      have live₁ : c₁.state ≠ .closing := by rw [← settled]; exact armWrite_state live
      have later := ih rest c₁ s₁ restEnough restNonempty restSmall (by rw [read₁]; exact left')
        (by rw [read₁]; exact stream') live₁
      rcases Outcome.cases (dispatchAll dispatch rest s₁) with h | ⟨e, h⟩ | ⟨⟨s₂, r₂⟩, h⟩
      · rw [h] at later ⊢
        replace later : feed dispatch fuel chunks c₁ s₁ = Outcome.stuck := later
        rw [later]
        rfl
      · rw [h] at later ⊢
        replace later : feed dispatch fuel chunks c₁ s₁ = Outcome.threw e := later
        rw [later]
        rfl
      · rw [h] at later ⊢
        obtain ⟨c₂, fed, read₂, write₂, live₂⟩ := later
        rw [fed]
        refine ⟨c₂, rfl, read₂, ?_, live₂⟩
        rw [write₂, write₁, List.append_assoc]

/-- Commands survive every fragmentation of their stream: the parse loop dispatches exactly
them, once each and in order, is never left by a parse error and consumes every byte. The
same for one buffer: an encoded command is read off its front, and a proper prefix of one
is waited on. -/
theorem feed_commands :
    (∀ (σ ε : Type) (dispatch : σ → List Bytes → Outcome ε (σ × Bytes))
      (cmds : List (List Bytes)) (chunks : List Bytes) (fuel : Nat) (c : Conn) (s : σ),
      (∀ args ∈ cmds, args ≠ []) → (cmds.flatMap array).length < 2 ^ 31 →
      chunks.flatten = cmds.flatMap array → cmds.length < fuel →
      c.readBuf = [] → c.state ≠ .closing →
      Delivered c chunks (dispatchAll dispatch cmds s) (feed dispatch fuel chunks c s)) ∧
    (∀ (args : List Bytes) (rest : Bytes) (out : List Bytes), args ≠ [] →
      (array args ++ rest).length < 2 ^ 31 →
      parse (array args ++ rest) out = (.complete, rest, args)) ∧
    (∀ (args : List Bytes) (p : Bytes) (out : List Bytes), args ≠ [] →
      (array args).length < 2 ^ 31 → p <+: array args → p ≠ array args →
      parse p out = (.incomplete, p, out)) := by
  refine ⟨?_, ?_, ?_⟩
  · intro σ ε dispatch cmds chunks fuel c s nonempty small cut enough empty live
    have left : PartialFrame array cmds c.readBuf := by
      rw [empty]
      cases cmds with
      | nil => exact Or.inl ⟨rfl, rfl⟩
      | cons args rest =>
        exact Or.inr ⟨args, rest, rfl, List.nil_prefix, by simp [array_eq]⟩
    exact feed_delivered dispatch chunks cmds c s enough nonempty (small_of_stream small) left
      (by simpa [empty] using cut) live
  · intro args rest out nonempty small
    rw [List.length_append] at small
    exact parse_array_append rest out nonempty (by omega)
  · intro args p out nonempty small pre short
    exact parse_array_cut out nonempty small pre short

/-- Two commands, one with CR LF in its body, cut in the middle of that body. -/
theorem feed_commands_cut_in_body :
    Delivered (σ := Nat) (ε := Unit) ⟨5, .reading, [], [], 0, [], .input⟩
      [str "*2\r\n$4\r\nPI", str "NG\r\n$4\r\n\r\n$1\r\n*1\r\n$", str "4\r\nPING\r\n"]
      (dispatchAll (fun n args => Outcome.returned (n + args.length, str "+OK\r\n"))
        [[str "PING", str "\r\n$1"], [str "PING"]] 0)
      (feed (fun n args => Outcome.returned (n + args.length, str "+OK\r\n")) 3
        [str "*2\r\n$4\r\nPI", str "NG\r\n$4\r\n\r\n$1\r\n*1\r\n$", str "4\r\nPING\r\n"]
        ⟨5, .reading, [], [], 0, [], .input⟩ 0) :=
  feed_commands.1 Nat Unit _ [[str "PING", str "\r\n$1"], [str "PING"]] _ 3 _ 0
    (by decide) (by decide) (by decide) (by decide) rfl (by decide)

end FastGraph.Server
