import FastGraph.Net.Sending

/-!
# Replies on their way out

Replies are appended behind what is still unsent, `write` takes bytes from the front of it, and
the buffer is cleared when nothing is left. So the accepted bytes and the unsent ones are the
replies in order, between any two statements of the handlers. Bytes that are left over after an
event keep the connection registered for output.
-/

namespace FastGraph.Server
open Relation RespEncoder

/-! ### Nothing is lost, repeated or reordered -/

/-- The accepted bytes and the unsent ones are the replies, in order. -/
structure Accounted {σ : Type} (m : Moment σ) : Prop where
  inside : m.conn.writeOffset ≤ m.conn.writeBuf.length
  total : m.accepted ++ unsent m.conn = m.replies.flatten

section
variable {σ ε : Type} {dispatch : σ → List Bytes → Outcome ε (σ × Bytes)} {m m' : Moment σ}

theorem armWrite_buffer (c : Conn) :
    (armWrite c).writeBuf = c.writeBuf ∧ (armWrite c).writeOffset = c.writeOffset := by
  unfold armWrite
  split <;> exact ⟨rfl, rfl⟩

theorem awaitInput_buffer (c : Conn) :
    (awaitInput c).writeBuf = c.writeBuf ∧ (awaitInput c).writeOffset = c.writeOffset := by
  unfold awaitInput
  split <;> exact ⟨rfl, rfl⟩

/-- What is unsent after a `write`. -/
theorem unsent_advance (c : Conn) (extra : Nat) :
    (advance c extra).writeOffset ≤ (advance c extra).writeBuf.length ∧
      unsent (advance c extra) = (unsent c).drop (extra + 1) := by
  unfold advance unsent
  dsimp only
  split
  · rename_i all
    refine ⟨le_refl 0, ?_⟩
    rw [List.drop_drop, List.drop_nil, eq_comm, List.drop_eq_nil_iff]
    omega
  · rename_i part
    refine ⟨min_le_right _ _, ?_⟩
    have here : min (c.writeOffset + (extra + 1)) c.writeBuf.length =
        c.writeOffset + (extra + 1) := by omega
    rw [List.drop_drop]
    exact congrArg (c.writeBuf.drop ·) here

/-- A `write` that accepts bytes, and the ones after it. -/
theorem doWrite_sent {c : Conn} (some_left : c.writeOffset < c.writeBuf.length) (extra : Nat)
    (results : List WriteResult) :
    doWrite (.sent extra :: results) c = doWrite results (advance c extra) := by
  rw [doWrite, if_pos some_left, advance]
  dsimp only
  split <;> rfl

theorem unsent_append (c : Conn) (inside : c.writeOffset ≤ c.writeBuf.length) (reply : Bytes) :
    (c.writeBuf ++ reply).drop c.writeOffset = unsent c ++ reply := by
  rw [unsent, List.drop_append_of_le_length inside]

/-- What one statement preserves. -/
theorem Accounted.step (holds : Accounted m) (step : Step dispatch m m') : Accounted m' := by
  obtain ⟨inside, total⟩ := holds
  have append (reply : Bytes) : m.accepted ++ (unsent m.conn ++ reply) =
      (m.replies ++ [reply]).flatten := by
    rw [← List.append_assoc, total, List.flatten_append, List.flatten_singleton]
  have longer (reply : Bytes) : m.conn.writeOffset ≤ (m.conn.writeBuf ++ reply).length := by
    rw [List.length_append]
    omega
  cases step with
  | receive chunk => exact ⟨inside, total⟩
  | close => exact ⟨inside, total⟩
  | parse parsed => exact ⟨inside, total⟩
  | reply answered =>
    refine ⟨longer _, ?_⟩
    rw [← append, ← unsent_append m.conn inside]
    rfl
  | protocolError =>
    refine ⟨longer _, ?_⟩
    rw [← append, ← unsent_append m.conn inside]
    rfl
  | arm =>
    obtain ⟨buffer, offset⟩ := armWrite_buffer m.conn
    refine ⟨by simpa only [buffer, offset] using inside, ?_⟩
    simpa only [unsent, buffer, offset] using total
  | write extra some_left =>
    obtain ⟨inside', left⟩ := unsent_advance m.conn extra
    refine ⟨inside', ?_⟩
    rw [left, List.append_assoc, List.take_append_drop, total]
  | await =>
    obtain ⟨buffer, offset⟩ := awaitInput_buffer m.conn
    refine ⟨by simpa only [buffer, offset] using inside, ?_⟩
    simpa only [unsent, buffer, offset] using total

theorem Accounted.steps (holds : Accounted m) (steps : Steps dispatch m m') : Accounted m' := by
  induction steps with
  | refl => exact holds
  | tail _ step ih => exact ih.step step

theorem accounted_start (fd : Int) (s : σ) : Accounted (Moment.start fd s) := ⟨le_refl 0, rfl⟩

end

/-! ### The handlers are sequences of these statements -/

section
variable {σ ε : Type} {dispatch : σ → List Bytes → Outcome ε (σ × Bytes)} {fuel : Nat}
  {c c₁ : Conn} {s s₁ : σ} {accepted : Bytes} {replies : List Bytes}

theorem tryParseLoop_steps {res : ParseResult}
    (ran : tryParseLoop dispatch fuel c s = Outcome.returned (res, c₁, s₁)) :
    Steps dispatch ⟨c, s, accepted, replies⟩
      ⟨c₁, s₁, accepted, replies ++ loopReplies dispatch fuel c.readBuf s⟩ := by
  induction fuel generalizing c s replies with
  | zero => simp [tryParseLoop] at ran
  | succ fuel ih =>
    obtain ⟨⟨outcome, buf, args⟩, parsed⟩ : ∃ r, RespParser.parse c.readBuf [] = r := ⟨_, rfl⟩
    rw [tryParseLoop, parsed] at ran
    rw [loopReplies, parsed]
    cases outcome with
    | incomplete =>
      cases ran
      rw [List.append_nil]
      exact .single (.parse parsed)
    | error =>
      cases ran
      exact .tail (.single (.parse parsed)) .protocolError
    | complete =>
      obtain ⟨⟨s', reply⟩, answered, later⟩ := Outcome.bind_eq_returned.mp ran
      have first : Step dispatch ⟨{ c with readBuf := buf, args := args }, s, accepted, replies⟩
          ⟨{ c with readBuf := buf, args := args, writeBuf := c.writeBuf ++ reply }, s', accepted,
            replies ++ [reply]⟩ := .reply answered
      have rest := @ih _ s' (replies ++ [reply]) later
      change dispatch s args = some (.ok (s', reply)) at answered
      rw [List.append_assoc, List.singleton_append] at rest
      dsimp only
      rw [answered]
      exact .head (.parse parsed) (.head first rest)

theorem onInput_steps {ev : IoEvent} {res : Option ParseResult}
    (ran : onInput dispatch fuel c ev s = Outcome.returned (res, c₁, s₁)) :
    Steps dispatch ⟨c, s, accepted, replies⟩
      ⟨c₁, s₁, accepted, replies ++ eventReplies dispatch fuel c ev s⟩ := by
  unfold onInput at ran
  unfold eventReplies
  split at ran
  · rename_i reads input
    obtain ⟨chunks, ending⟩ := reads
    rw [input]
    cases ending with
    | gone =>
      cases ran
      rw [List.append_nil]
      exact .tail (.single (.receive chunks.flatten)) .close
    | again =>
      obtain ⟨⟨res', c', s'⟩, tried, same⟩ := Outcome.bind_eq_returned.mp ran
      cases same
      obtain ⟨⟨res', c', s'⟩, looped, same⟩ := Outcome.bind_eq_returned.mp tried
      cases same
      exact .head (.receive chunks.flatten) (.tail (tryParseLoop_steps looped) .arm)
  · rename_i input
    cases ran
    rw [input, List.append_nil]

theorem doWrite_steps (results : List WriteResult) :
    Steps dispatch ⟨c, s, accepted, replies⟩
      ⟨doWrite results c, s, accepted ++ taken results (unsent c), replies⟩ := by
  have all_sent {c : Conn} (all : ¬ c.writeOffset < c.writeBuf.length) : unsent c = [] :=
    List.drop_eq_nil_iff.mpr (Nat.not_lt.mp all)
  induction results generalizing c accepted with
  | nil =>
    unfold doWrite taken
    rw [List.append_nil]
    split
    · exact .refl
    · exact .single .await
  | cons result results ih =>
    unfold taken
    by_cases some_left : c.writeOffset < c.writeBuf.length
    · have some_unsent : unsent c ≠ [] := by
        unfold unsent
        rw [Ne, List.drop_eq_nil_iff]
        omega
      rw [if_neg some_unsent]
      cases result with
      | sent extra =>
        have rest := @ih (advance c extra) (accepted ++ (unsent c).take (extra + 1))
        rw [(unsent_advance c extra).2, List.append_assoc] at rest
        rw [doWrite_sent some_left]
        exact .head (.write extra some_left) rest
      | again =>
        rw [doWrite, if_pos some_left, List.append_nil]
      | failed =>
        rw [doWrite, if_pos some_left, List.append_nil]
        exact .single .close
    · unfold doWrite
      rw [if_neg some_left, if_pos (all_sent some_left), List.append_nil]
      exact .single .await

/-- One call of `on_io`, up to the removal of a closing connection. -/
theorem onIo_steps {ev : IoEvent} {res : Option ParseResult}
    (ran : onInput dispatch fuel c ev s = Outcome.returned (res, c₁, s₁)) :
    Steps dispatch ⟨c, s, accepted, replies⟩
      ⟨onOutput c₁ ev, s₁, accepted ++ taken (ev.output.getD []) (unsent c₁),
        replies ++ eventReplies dispatch fuel c ev s⟩ := by
  have first := @onInput_steps σ ε dispatch fuel c c₁ s s₁ accepted replies ev res ran
  unfold onOutput
  split
  · rename_i results output
    rw [output]
    exact first.trans (doWrite_steps results)
  · rename_i output
    rw [output, Option.getD_none, taken, List.append_nil]
    exact first

end

/-! ### What is left over is waited for -/

/-- Unsent bytes on an open connection keep it registered for output. -/
def Armed (c : Conn) : Prop :=
  c.writeOffset < c.writeBuf.length → c.state ≠ .closing →
    c.state = .writing ∧ c.events = .inputOutput

theorem armed_of_closing {c : Conn} (closing : c.state = .closing) : Armed c :=
  fun _ isOpen => absurd closing isOpen

theorem armed_armWrite (c : Conn) : Armed (armWrite c) := by
  unfold armWrite
  split
  · exact fun _ _ => ⟨rfl, rfl⟩
  · rename_i all
    exact fun some_left => absurd some_left all

theorem armed_awaitInput {c : Conn} (all : ¬ c.writeOffset < c.writeBuf.length) :
    Armed (awaitInput c) := by
  obtain ⟨buffer, offset⟩ := awaitInput_buffer c
  intro some_left
  rw [buffer, offset] at some_left
  exact absurd some_left all

theorem Armed.doWrite {c : Conn} (armed : Armed c) (results : List WriteResult) :
    Armed (doWrite results c) := by
  induction results generalizing c with
  | nil =>
    unfold Server.doWrite
    split
    · exact armed
    · rename_i all
      exact armed_awaitInput all
  | cons result results ih =>
    unfold Server.doWrite
    split
    · rename_i some_left
      cases result with
      | sent extra =>
        dsimp only
        split
        · exact ih fun none_left => absurd none_left (Nat.lt_irrefl 0)
        · exact ih fun _ => armed some_left
      | again => exact armed
      | failed => exact armed_of_closing rfl
    · rename_i all
      exact armed_awaitInput all

section
variable {σ ε : Type} {dispatch : σ → List Bytes → Outcome ε (σ × Bytes)} {fuel : Nat}

theorem Armed.onInput {c c₁ : Conn} {s s₁ : σ} {ev : IoEvent} {res : Option ParseResult}
    (armed : Armed c)
    (ran : onInput dispatch fuel c ev s = Outcome.returned (res, c₁, s₁)) : Armed c₁ := by
  unfold Server.onInput at ran
  split at ran
  · unfold doRead at ran
    split at ran
    · cases ran
      exact armed_of_closing rfl
    · obtain ⟨⟨res', c', s'⟩, tried, same⟩ := Outcome.bind_eq_returned.mp ran
      cases same
      obtain ⟨⟨res', c', s'⟩, -, same⟩ := Outcome.bind_eq_returned.mp tried
      cases same
      exact armed_armWrite c'
  · cases ran
    exact armed

theorem Armed.onOutput {c : Conn} (armed : Armed c) (ev : IoEvent) : Armed (onOutput c ev) := by
  unfold Server.onOutput
  split
  · exact armed.doWrite _
  · exact armed

/-- The traffic of an event and of those after it. -/
theorem traffic_cons {ev : IoEvent} {c c₁ : Conn} {s s₁ : σ} {res : Option ParseResult}
    (ran : onInput dispatch fuel c ev s = Outcome.returned (res, c₁, s₁)) (evs : List IoEvent) :
    traffic dispatch fuel (ev :: evs) c s =
      (taken (ev.output.getD []) (unsent c₁) ++ (traffic dispatch fuel evs (onOutput c₁ ev) s₁).1,
        eventReplies dispatch fuel c ev s ++ (traffic dispatch fuel evs (onOutput c₁ ev) s₁).2) := by
  change onInput dispatch fuel c ev s = some (.ok (res, c₁, s₁)) at ran
  rw [traffic, ran]

/-- What the calls of `on_io` for a list of events preserve. -/
theorem ioRun_steps {evs : List IoEvent} {c c₁ : Conn} {s s₁ : σ} {accepted : Bytes}
    {replies : List Bytes} (armed : Armed c)
    (ran : ioRun dispatch fuel evs c s = Outcome.returned (some c₁, s₁)) :
    Armed c₁ ∧ Steps dispatch ⟨c, s, accepted, replies⟩
      ⟨c₁, s₁, accepted ++ (traffic dispatch fuel evs c s).1,
        replies ++ (traffic dispatch fuel evs c s).2⟩ := by
  induction evs generalizing c s accepted replies with
  | nil =>
    cases ran
    rw [traffic, List.append_nil, List.append_nil]
    exact ⟨armed, .refl⟩
  | cons ev evs ih =>
    obtain ⟨⟨left, s'⟩, handled, later⟩ := Outcome.bind_eq_returned.mp ran
    obtain ⟨⟨res, c', s''⟩, entered, same⟩ := Outcome.bind_eq_returned.mp handled
    cases same
    have first := @onIo_steps σ ε dispatch fuel c c' s s' accepted replies ev res entered
    dsimp only at later
    split at later
    · rename_i kept
      split at kept
      · cases kept
      · cases kept
        obtain ⟨armed', rest⟩ := @ih _ s' _ _ ((armed.onInput entered).onOutput ev) later
        rw [traffic_cons entered, ← List.append_assoc, ← List.append_assoc]
        exact ⟨armed', first.trans rest⟩
    · cases later

/-- The traffic of one more event. -/
theorem traffic_snoc {evs : List IoEvent} {c c₁ : Conn} {s s₁ : σ} (ev : IoEvent)
    (ran : ioRun dispatch fuel evs c s = Outcome.returned (some c₁, s₁)) :
    traffic dispatch fuel (evs ++ [ev]) c s =
      ((traffic dispatch fuel evs c s).1 ++ (traffic dispatch fuel [ev] c₁ s₁).1,
        (traffic dispatch fuel evs c s).2 ++ (traffic dispatch fuel [ev] c₁ s₁).2) := by
  induction evs generalizing c s with
  | nil =>
    cases ran
    rfl
  | cons ev' evs ih =>
    obtain ⟨⟨left, s'⟩, handled, later⟩ := Outcome.bind_eq_returned.mp ran
    obtain ⟨⟨res, c', s''⟩, entered, same⟩ := Outcome.bind_eq_returned.mp handled
    cases same
    dsimp only at later
    split at later
    · rename_i kept
      split at kept
      · cases kept
      · cases kept
        rw [List.cons_append, traffic_cons entered, traffic_cons entered, ih later]
        simp only [List.append_assoc]
    · cases later

/-- Between any two statements the accepted bytes and the unsent ones are the replies in order.
A call of `on_io` after any events consists of such statements, which accept the bytes that the
writes take and append the replies to the commands, and it leaves a connection that is registered
for output if bytes are unsent and it is not closing. -/
theorem replies_sent (dispatch : σ → List Bytes → Outcome ε (σ × Bytes)) (fd : Int) (s : σ) :
    (∀ m, Steps dispatch (Moment.start fd s) m →
      m.accepted ++ m.conn.writeBuf.drop m.conn.writeOffset = m.replies.flatten) ∧
    ∀ fuel evs ev c₁ c₂ s₁ s₂ res,
      ioRun dispatch fuel evs (accepted fd) s = Outcome.returned (some c₁, s₁) →
      onInput dispatch fuel c₁ ev s₁ = Outcome.returned (res, c₂, s₂) →
      Armed (onOutput c₂ ev) ∧ Steps dispatch (Moment.start fd s)
        ⟨onOutput c₂ ev, s₂, (traffic dispatch fuel (evs ++ [ev]) (accepted fd) s).1,
          (traffic dispatch fuel (evs ++ [ev]) (accepted fd) s).2⟩ := by
  refine ⟨fun m steps => ((accounted_start fd s).steps steps).total, ?_⟩
  intro fuel evs ev c₁ c₂ s₁ s₂ res before ran
  have idle : Armed (accepted fd) := fun none_left => absurd none_left (Nat.lt_irrefl 0)
  obtain ⟨armed, first⟩ := @ioRun_steps σ ε dispatch fuel evs _ c₁ s s₁ [] [] idle before
  refine ⟨(armed.onInput ran).onOutput ev, first.trans ?_⟩
  rw [traffic_snoc ev before, traffic_cons ran]
  simp only [traffic, List.append_nil]
  exact onIo_steps ran

/-- Two bytes of a reply are accepted, and the others wait for the next event. -/
theorem replies_sent_partial :
    Armed ⟨5, .writing, [], str "+PONG\r\n", 2, [], .inputOutput⟩ ∧
      Steps (fun _ _ => (Outcome.returned ((), str "+PONG\r\n") : Outcome Unit _))
        (Moment.start 5 ()) ⟨⟨5, .writing, [], str "+PONG\r\n", 2, [], .inputOutput⟩, (), str "+P",
          [str "+PONG\r\n"]⟩ :=
  (replies_sent (fun _ _ => (Outcome.returned ((), str "+PONG\r\n") : Outcome Unit _)) 5 ()).2
    3 [] ⟨some ([array [str "PING"]], .again), some [.sent 1, .again]⟩ (accepted 5) _ () ()
    (some .incomplete) rfl rfl

end

end FastGraph.Server
