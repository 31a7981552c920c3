import FastGraph.Net.Proofs.Sending

/-!
# Connections after a parse error

A parse error is to close the connection once its reply is sent. The end of `try_parse`
makes the connection a writing one whenever there are bytes to send, and after an error
there are: the state set for the error is lost in every run that meets one. When the
reply has been sent the connection reads on, so that the law holds only where the peer
sends no command and takes no complete reply before the connection breaks.
-/

namespace FastGraph.Server

variable {σ ε : Type} {dispatch : σ → List Bytes → Outcome ε (σ × Bytes)} {fuel : Nat}
  {c c₁ : Conn} {s s₁ : σ} {res : Option ParseResult}

/-! ### The law -/

/-- The event makes the parse loop call the dispatcher. -/
def Dispatches (c : Conn) (ev : IoEvent) : Prop :=
  ∃ chunks, ev.input = some (chunks, .again) ∧
    (RespParser.parse (c.readBuf ++ chunks.flatten) []).1 = .complete

/-- An event that reads nothing, or reads on to the end or to a failure, dispatches nothing. -/
theorem not_dispatches {ev : IoEvent} (other : ∀ chunks, ev.input ≠ some (chunks, .again)) :
    ¬ Dispatches c ev := by
  intro ⟨chunks, input, _⟩
  exact other chunks input

theorem dispatches_iff {ev : IoEvent} {chunks : List Bytes} (input : ev.input = some (chunks, .again)) :
    Dispatches c ev ↔ (RespParser.parse (c.readBuf ++ chunks.flatten) []).1 = .complete := by
  constructor
  · intro ⟨chunks', same, complete⟩
    rw [input] at same
    cases same
    exact complete
  · intro complete
    exact ⟨chunks, input, complete⟩

/-- The bytes queued behind the reply to the first parse error, if there has been one: none
when it is met, and later what an event appends. -/
def queuedBehind (behind : Option Nat) (res : Option ParseResult) (c c₁ : Conn) : Option Nat :=
  match behind, res with
  | some n, _ => some (n + (c₁.writeBuf.length - c.writeBuf.length))
  | none, some .error => some 0
  | none, _ => none

/-- After a parse error whose reply is sent the connection is closing. -/
def ClosingOnceSent (behind : Option Nat) (c : Conn) : Prop :=
  ∀ n, behind = some n → (unsent c).length ≤ n → c.state = .closing

/-- The run of `on_io` over the events obeys the law of parse errors: once one has been met, if
`behind` says so or by a later event, no event makes the loop call the dispatcher, and after
every `do_read` and `do_write` the connection is closing if the error reply has been sent. The
run ends when the connection is removed, or when the dispatcher or the loop does not return. -/
def Obeys (dispatch : σ → List Bytes → Outcome ε (σ × Bytes)) (fuel : Nat) :
    Option Nat → List IoEvent → Conn → σ → Prop
  | _, [], _, _ => True
  | behind, ev :: evs, c, s =>
    (behind.isSome → ¬ Dispatches c ev) ∧
    ∀ res c₁ s₁, onInput dispatch fuel c ev s = Outcome.returned (res, c₁, s₁) →
      ClosingOnceSent (queuedBehind behind res c c₁) c₁ ∧
      ClosingOnceSent (queuedBehind behind res c c₁) (onOutput c₁ ev) ∧
      ((onOutput c₁ ev).state ≠ .closing →
        Obeys dispatch fuel (queuedBehind behind res c c₁) evs (onOutput c₁ ev) s₁)

/-! ### The peers for which it holds -/

/-- What a sequence of `write`s leaves of the unsent bytes, unless one of them fails. -/
def leftBy : List WriteResult → Nat → Option Nat
  | [], unsent => some unsent
  | result :: results, unsent =>
    if unsent = 0 then some 0
    else
      match result with
      | .sent extra => leftBy results (unsent - (extra + 1))
      | .again => some unsent
      | .failed => none

/-- The length of the reply to a parse error. -/
def errorReplyLength : Nat := (RespEncoder.error (str "protocol error")).length

/-- The reply that a result of the parser brings, if it is no command. -/
def replyLength (res : ParseResult) : Nat := if res = .error then errorReplyLength else 0

/-- From a parse error on, with `buf` in the read buffer and `unsent` bytes to send, `behind` of
them behind the error reply: the bytes that arrive complete no command, and the writes
leave a part of the error reply, until the end of the input or a failing read or write. -/
def Stalled : List IoEvent → Bytes → Nat → Nat → Prop
  | [], _, _, _ => True
  | ev :: evs, buf, unsent, behind =>
    match ev.input with
    | none => ∀ left, leftBy (ev.output.getD []) unsent = some left →
        behind < left ∧ Stalled evs buf left behind
    | some (_, .gone) => True
    | some (chunks, .again) =>
      match RespParser.parse (buf ++ chunks.flatten) [] with
      | (res, buf, _) => res ≠ .complete ∧
          ∀ left, leftBy (ev.output.getD []) (unsent + replyLength res) = some left →
            behind + replyLength res < left ∧ Stalled evs buf left (behind + replyLength res)

/-- From the first parse error of the run on, the peer stalls. -/
def StallsOnError (dispatch : σ → List Bytes → Outcome ε (σ × Bytes)) (fuel : Nat) :
    List IoEvent → Conn → σ → Prop
  | [], _, _ => True
  | ev :: evs, c, s =>
    ∀ res c₁ s₁, onInput dispatch fuel c ev s = Outcome.returned (res, c₁, s₁) →
      if res = some .error then
        ∀ left, leftBy (ev.output.getD []) (unsent c₁).length = some left →
          0 < left ∧ Stalled evs c₁.readBuf left 0
      else (onOutput c₁ ev).state ≠ .closing → StallsOnError dispatch fuel evs (onOutput c₁ ev) s₁

/-! ### What the parts of on_io do -/

/-- The bytes that have been sent are among the bytes to send. -/
def Sendable (c : Conn) : Prop := c.writeOffset ≤ c.writeBuf.length

theorem sendable_accepted (fd : Int) : Sendable (accepted fd) := le_refl 0

theorem tryParseLoop_spec {res : ParseResult} (sendable : Sendable c)
    (ran : tryParseLoop dispatch fuel c s = Outcome.returned (res, c₁, s₁)) :
    Sendable c₁ ∧ (res = .error → c₁.writeOffset < c₁.writeBuf.length) := by
  induction fuel generalizing c s with
  | zero => simp [tryParseLoop] at ran
  | succ fuel ih =>
    unfold tryParseLoop at ran
    unfold Sendable at sendable ⊢
    split at ran
    · simp only [Outcome.pure_eq, Outcome.returned_inj, Prod.mk.injEq] at ran
      obtain ⟨rfl, rfl, -⟩ := ran
      exact ⟨sendable, fun same => by cases same⟩
    · simp only [Outcome.pure_eq, Outcome.returned_inj, Prod.mk.injEq] at ran
      obtain ⟨-, rfl, -⟩ := ran
      have reply : 0 < (RespEncoder.error (str "protocol error")).length := by decide
      simp only [List.length_append]
      constructor
      · omega
      · intro
        omega
    · obtain ⟨⟨s', reply⟩, -, later⟩ := Outcome.bind_eq_returned.mp ran
      refine ih ?_ later
      simp only [Sendable, List.length_append]
      omega

/-- After a parse error the connection is a writing one, with bytes to send. -/
theorem onInput_spec {ev : IoEvent} (sendable : Sendable c)
    (ran : onInput dispatch fuel c ev s = Outcome.returned (res, c₁, s₁)) :
    Sendable c₁ ∧
      (res = some .error → c₁.state = .writing ∧ c₁.writeOffset < c₁.writeBuf.length) := by
  unfold onInput at ran
  split at ran
  · rename_i reads _
    unfold doRead at ran
    split at ran
    · cases ran
      exact ⟨sendable, fun same => by cases same⟩
    · obtain ⟨⟨res', c', s'⟩, tried, same⟩ := Outcome.bind_eq_returned.mp ran
      cases same
      obtain ⟨⟨res', c', s'⟩, looped, same⟩ := Outcome.bind_eq_returned.mp tried
      cases same
      obtain ⟨sendable', unsent⟩ := tryParseLoop_spec (by exact sendable) looped
      unfold armWrite
      split
      · rename_i toSend
        exact ⟨sendable', fun _ => ⟨rfl, toSend⟩⟩
      · rename_i allSent
        refine ⟨sendable', ?_⟩
        intro error
        cases error
        exact absurd (unsent rfl) allSent
  · cases ran
    exact ⟨sendable, fun same => by cases same⟩

theorem doWrite_sendable (results : List WriteResult) (sendable : Sendable c) :
    Sendable (doWrite results c) := by
  have awaiting (d : Conn) (h : Sendable d) : Sendable (awaitInput d) := by
    unfold awaitInput
    split <;> exact h
  induction results generalizing c with
  | nil =>
    unfold doWrite
    split
    · exact sendable
    · exact awaiting c sendable
  | cons result results ih =>
    unfold doWrite
    split
    · cases result with
      | sent extra =>
        dsimp only
        split
        · exact ih (le_refl 0)
        · exact ih (min_le_right _ _)
      | again => exact sendable
      | failed => exact sendable
    · exact awaiting c sendable

theorem onOutput_sendable {ev : IoEvent} (sendable : Sendable c) : Sendable (onOutput c ev) := by
  unfold onOutput
  split
  · exact doWrite_sendable _ sendable
  · exact sendable

/-- A closing connection stays closing. -/
theorem onOutput_of_closing {ev : IoEvent} (closing : c.state = .closing) :
    (onOutput c ev).state = .closing := by
  have awaiting (d : Conn) (h : d.state = .closing) : (awaitInput d).state = .closing := by
    unfold awaitInput
    rw [if_neg (by simp [h])]
    exact h
  have writes (results : List WriteResult) (d : Conn) (h : d.state = .closing) :
      (doWrite results d).state = .closing := by
    induction results generalizing d with
    | nil =>
      unfold doWrite
      split
      · exact h
      · exact awaiting d h
    | cons result results ih =>
      unfold doWrite
      split
      · cases result with
        | sent extra =>
          dsimp only
          split
          · exact ih _ h
          · exact ih _ h
        | again => exact h
        | failed => rfl
      · exact awaiting d h
  unfold onOutput
  split
  · exact writes _ c closing
  · exact closing

/-- What the writes of an event do to an open connection. -/
theorem doWrite_open (results : List WriteResult) (sendable : Sendable c) (live : c.state ≠ .closing) :
    match leftBy results (unsent c).length with
    | none => (doWrite results c).state = .closing ∧ (unsent (doWrite results c)).length ≠ 0
    | some left => (unsent (doWrite results c)).length = left ∧
        (doWrite results c).readBuf = c.readBuf ∧
        (doWrite results c).state = if left = 0 then .reading else c.state := by
  have none_left {c : Conn} (live : c.state ≠ .closing) (all : ¬ c.writeOffset < c.writeBuf.length) :
      (unsent (awaitInput c)).length = 0 ∧ (awaitInput c).readBuf = c.readBuf ∧
        (awaitInput c).state = .reading := by
    unfold awaitInput
    rw [if_pos live]
    refine ⟨?_, rfl, rfl⟩
    rw [unsent, List.length_drop]
    exact Nat.sub_eq_zero_of_le (Nat.not_lt.mp all)
  have some_unsent {c : Conn} (some_left : c.writeOffset < c.writeBuf.length) :
      (unsent c).length ≠ 0 := by
    rw [unsent, List.length_drop]
    omega
  have none_unsent {c : Conn} (all : ¬ c.writeOffset < c.writeBuf.length) :
      (unsent c).length = 0 := by
    rw [unsent, List.length_drop]
    omega
  induction results generalizing c with
  | nil =>
    by_cases some_left : c.writeOffset < c.writeBuf.length
    · rw [leftBy, doWrite, if_pos some_left]
      exact ⟨rfl, rfl, (if_neg (some_unsent some_left)).symm⟩
    · rw [leftBy, doWrite, if_neg some_left, none_unsent some_left]
      exact none_left live some_left
  | cons result results ih =>
    by_cases some_left : c.writeOffset < c.writeBuf.length
    · unfold leftBy
      rw [if_neg (some_unsent some_left)]
      cases result with
      | sent extra =>
        obtain ⟨sendable', less⟩ := unsent_advance c extra
        have state : (advance c extra).state = c.state ∧ (advance c extra).readBuf = c.readBuf := by
          unfold advance
          dsimp only
          split <;> exact ⟨rfl, rfl⟩
        have rest := ih (c := advance c extra) sendable' (by rw [state.1]; exact live)
        rw [less, List.length_drop, state.1, state.2] at rest
        rw [doWrite_sent some_left]
        exact rest
      | again =>
        rw [doWrite, if_pos some_left]
        exact ⟨rfl, rfl, (if_neg (some_unsent some_left)).symm⟩
      | failed =>
        rw [doWrite, if_pos some_left]
        exact ⟨rfl, some_unsent some_left⟩
    · unfold leftBy doWrite
      rw [if_neg some_left, if_pos (none_unsent some_left)]
      exact none_left live some_left

/-- The same of the writes an event has, if it has any. -/
theorem onOutput_open (ev : IoEvent) (sendable : Sendable c) (live : c.state ≠ .closing) :
    match leftBy (ev.output.getD []) (unsent c).length with
    | none => (onOutput c ev).state = .closing
    | some left => (unsent (onOutput c ev)).length = left ∧ (onOutput c ev).readBuf = c.readBuf ∧
        (onOutput c ev).state ≠ .closing := by
  unfold onOutput
  cases ev.output with
  | none => exact ⟨rfl, rfl, live⟩
  | some results =>
    have writes := doWrite_open results sendable live
    rw [Option.getD_some]
    cases rest : leftBy results (unsent c).length with
    | none =>
      rw [rest] at writes
      exact writes.1
    | some left =>
      rw [rest] at writes
      obtain ⟨length, buffer, state⟩ := writes
      refine ⟨length, buffer, ?_⟩
      dsimp only
      rw [state]
      split
      · simp
      · exact live

/-- Bytes that are no command are received: the error reply, if any, is queued. -/
theorem onInput_quiet {ev : IoEvent} {chunks : List Bytes} {res : ParseResult} {buf : Bytes}
    {args : List Bytes} (input : ev.input = some (chunks, .again)) (sendable : Sendable c)
    (parsed : RespParser.parse (c.readBuf ++ chunks.flatten) [] = (res, buf, args))
    (quiet : res ≠ .complete) (live : c.state ≠ .closing) :
    ∃ c₁, onInput dispatch (fuel + 1) c ev s = Outcome.returned (some res, c₁, s) ∧
      c₁.readBuf = buf ∧ c₁.writeBuf.length = c.writeBuf.length + replyLength res ∧
      (unsent c₁).length = (unsent c).length + replyLength res ∧ c₁.state ≠ .closing := by
  have arms (d : Conn) : (armWrite d).readBuf = d.readBuf ∧ (armWrite d).writeBuf = d.writeBuf ∧
      unsent (armWrite d) = unsent d ∧
      ((unsent d).length ≠ 0 ∨ d.state ≠ .closing → (armWrite d).state ≠ .closing) := by
    unfold armWrite
    split
    · exact ⟨rfl, rfl, rfl, fun _ => by simp⟩
    · rename_i all
      refine ⟨rfl, rfl, rfl, fun opened => opened.resolve_left ?_⟩
      rw [unsent, List.length_drop]
      omega
  cases res with
  | complete => exact absurd rfl quiet
  | incomplete =>
    obtain ⟨buffer, queue, left, opened⟩ := arms { c with readBuf := buf, args := args }
    refine ⟨armWrite { c with readBuf := buf, args := args }, ?_, buffer, ?_, ?_, opened (Or.inr live)⟩
    · simp only [onInput, input, doRead, tryParse, tryParseLoop, parsed]
      rfl
    · rw [queue]
      rfl
    · rw [left]
      rfl
  | error =>
    obtain ⟨buffer, queue, left, opened⟩ := arms { c with
      readBuf := buf
      args := args
      writeBuf := c.writeBuf ++ RespEncoder.error (str "protocol error")
      state := .closing }
    have reply : 0 < errorReplyLength := by decide
    have grown : ((c.writeBuf ++ RespEncoder.error (str "protocol error")).drop c.writeOffset).length =
        (unsent c).length + errorReplyLength := by
      rw [unsent_append c sendable, List.length_append, errorReplyLength]
    refine ⟨armWrite { c with
      readBuf := buf
      args := args
      writeBuf := c.writeBuf ++ RespEncoder.error (str "protocol error")
      state := .closing }, ?_, buffer, ?_, ?_, opened (Or.inl ?_)⟩
    · simp only [onInput, input, doRead, tryParse, tryParseLoop, parsed]
      rfl
    · rw [queue, List.length_append]
      rfl
    · rw [left, unsent]
      exact grown
    · rw [unsent, grown]
      omega

/-! ### The law, and the runs that obey it -/

theorem closingOnceSent_iff {behind : Nat} (live : c.state ≠ .closing) :
    ClosingOnceSent (some behind) c ↔ behind < (unsent c).length := by
  unfold ClosingOnceSent
  constructor
  · intro lawful
    by_contra sent
    exact live (lawful behind rfl (Nat.not_lt.mp sent))
  · intro some_left n same sent
    cases same
    exact absurd some_left (Nat.not_lt.mpr sent)

theorem closingOnceSent_of_closing {behind : Option Nat} (closing : c.state = .closing) :
    ClosingOnceSent behind c := fun _ _ _ => closing

theorem forall_onInput {ev : IoEvent} {P : Option ParseResult → Conn → σ → Prop}
    (ran : onInput dispatch fuel c ev s = Outcome.returned (res, c₁, s₁)) :
    (∀ res c₁ s₁, onInput dispatch fuel c ev s = Outcome.returned (res, c₁, s₁) → P res c₁ s₁) ↔
      P res c₁ s₁ := by
  constructor
  · exact fun holds => holds res c₁ s₁ ran
  · intro holds res' c' s' ran'
    rw [ran, Outcome.returned_inj] at ran'
    cases ran'
    exact holds

/-- The writes of an event after a parse error, where the law for the later events is known. -/
theorem obeys_output {behind : Nat} {ev : IoEvent} {evs : List IoEvent} (sendable : Sendable c)
    (live : c.state ≠ .closing)
    (later : ∀ d : Conn, Sendable d → d.state ≠ .closing → behind < (unsent d).length →
      (Obeys dispatch fuel (some behind) evs d s ↔ Stalled evs d.readBuf (unsent d).length behind)) :
    ClosingOnceSent (some behind) (onOutput c ev) ∧ ((onOutput c ev).state ≠ .closing →
        Obeys dispatch fuel (some behind) evs (onOutput c ev) s) ↔
      ∀ left, leftBy (ev.output.getD []) (unsent c).length = some left →
        behind < left ∧ Stalled evs c.readBuf left behind := by
  have writes := onOutput_open ev sendable live
  cases rest : leftBy (ev.output.getD []) (unsent c).length with
  | none =>
    rw [rest] at writes
    exact iff_of_true ⟨closingOnceSent_of_closing writes, fun opened => absurd writes opened⟩ (by simp)
  | some left =>
    rw [rest] at writes
    obtain ⟨rfl, buffer, opened⟩ := writes
    simp only [Option.some.injEq, forall_eq', closingOnceSent_iff opened]
    refine and_congr_right fun some_left => ?_
    rw [← buffer, ← later _ (onOutput_sendable sendable) opened some_left]
    exact ⟨fun lawful => lawful opened, fun lawful _ => lawful⟩

/-- After a parse error the law holds exactly if the peer stalls. -/
theorem obeys_after (evs : List IoEvent) {behind : Nat} (sendable : Sendable c)
    (live : c.state ≠ .closing) (below : behind < (unsent c).length) :
    Obeys dispatch (fuel + 1) (some behind) evs c s ↔
      Stalled evs c.readBuf (unsent c).length behind := by
  induction evs generalizing c s behind with
  | nil => simp [Obeys, Stalled]
  | cons ev evs ih =>
    unfold Obeys Stalled
    rw [Option.isSome_some]
    cases input : ev.input with
    | none =>
      have ran : onInput dispatch (fuel + 1) c ev s = Outcome.returned (none, c, s) := by
        simp only [onInput, input]
        rfl
      have quiet : ¬ Dispatches c ev := not_dispatches (by simp [input])
      rw [forall_onInput ran]
      simp only [queuedBehind, Nat.sub_self, Nat.add_zero, quiet, not_false_eq_true, implies_true,
        true_and, (closingOnceSent_iff live).mpr below]
      exact obeys_output sendable live fun d => ih
    | some reads =>
      obtain ⟨chunks, ending⟩ := reads
      cases ending with
      | gone =>
        have ran : onInput dispatch (fuel + 1) c ev s = Outcome.returned (none,
            { c with readBuf := c.readBuf ++ chunks.flatten, state := .closing }, s) := by
          simp only [onInput, input]
          rfl
        have quiet : ¬ Dispatches c ev := not_dispatches (by simp [input])
        rw [forall_onInput ran]
        have removed : (onOutput { c with
            readBuf := c.readBuf ++ chunks.flatten
            state := .closing } ev).state = .closing := onOutput_of_closing rfl
        refine iff_of_true ⟨fun _ => quiet, closingOnceSent_of_closing rfl,
          closingOnceSent_of_closing removed, fun opened => absurd removed opened⟩ trivial
      | again =>
        rcases parsed : RespParser.parse (c.readBuf ++ chunks.flatten) [] with ⟨res, buf, args⟩
        simp only [parsed]
        have dispatches : Dispatches c ev ↔ res = .complete := by
          rw [dispatches_iff input, parsed]
        by_cases command : res = .complete
        · exact iff_of_false (fun lawful => lawful.1 trivial (dispatches.mpr command))
            (fun stalled => stalled.1 command)
        · have quiet : ¬ Dispatches c ev := fun some => command (dispatches.mp some)
          obtain ⟨c₁, ran, rfl, queue, left, opened⟩ :=
            @onInput_quiet σ ε dispatch fuel c s ev chunks res buf args input sendable parsed command live
          rw [forall_onInput ran, queuedBehind, queue, Nat.add_sub_cancel_left]
          have below' : behind + replyLength res < (unsent c₁).length := by
            rw [left]
            omega
          simp only [quiet, not_false_eq_true, implies_true, true_and, command, ne_eq,
            (closingOnceSent_iff opened).mpr below']
          rw [← left]
          exact obeys_output (onInput_spec sendable ran).1 opened fun d => ih

theorem obeys_iff (evs : List IoEvent) (sendable : Sendable c) :
    Obeys dispatch fuel none evs c s ↔ StallsOnError dispatch fuel evs c s := by
  induction evs generalizing c s with
  | nil => simp [Obeys, StallsOnError]
  | cons ev evs ih =>
    unfold Obeys StallsOnError
    simp only [Option.isSome_none, Bool.false_eq_true, false_implies, true_and]
    refine forall_congr' fun res => forall_congr' fun c₁ => forall_congr' fun s₁ =>
      imp_congr_right fun ran => ?_
    obtain ⟨sendable₁, writing⟩ := onInput_spec sendable ran
    by_cases error : res = some .error
    · obtain ⟨state, some_left⟩ := writing error
      have opened : c₁.state ≠ .closing := by simp [state]
      have below : 0 < (unsent c₁).length := by
        rw [unsent, List.length_drop]
        omega
      -- The loop has met the error, so that it has a step to make.
      cases fuel with
      | zero =>
        subst error
        unfold onInput doRead at ran
        split at ran
        · split at ran
          · cases ran
          · cases ran
        · cases ran
      | succ fuel =>
        rw [if_pos error, error, queuedBehind, closingOnceSent_iff opened]
        simp only [below, true_and]
        exact obeys_output sendable₁ opened fun d => obeys_after evs
    · have none : queuedBehind none res c c₁ = none := by
        cases res with
        | none => rfl
        | some res =>
          cases res with
          | error => exact absurd rfl error
          | _ => rfl
      have lawful (d : Conn) : ClosingOnceSent (Option.none) d := by
        intro n same
        cases same
      rw [if_neg error, none]
      simp only [lawful, true_and, ih (onOutput_sendable sendable₁)]

/-- A run of events on a connection obeys the law of parse errors exactly if the peer stalls from
the first one on: after an error the connection is a writing one, and a reading one once the reply
is sent. -/
theorem closing_iff (dispatch : σ → List Bytes → Outcome ε (σ × Bytes)) (fuel : Nat) :
    (∀ fd evs s, Obeys dispatch fuel none evs (accepted fd) s ↔
      StallsOnError dispatch fuel evs (accepted fd) s) ∧
    ∀ c s ev c₁ s₁, Sendable c →
      onInput dispatch fuel c ev s = Outcome.returned (some .error, c₁, s₁) →
      c₁.state = .writing ∧
        ∀ results, (doWrite results c₁).writeBuf = [] → (doWrite results c₁).state = .reading := by
  constructor
  · intro fd evs s
    exact obeys_iff evs (sendable_accepted fd)
  · intro c s ev c₁ s₁ sendable ran
    obtain ⟨sendable₁, writing⟩ := onInput_spec sendable ran
    obtain ⟨overwritten, some_left⟩ := writing rfl
    refine ⟨overwritten, ?_⟩
    intro results flushed
    have writes := doWrite_open results sendable₁ (by rw [overwritten]; simp)
    have none_left : (unsent (doWrite results c₁)).length = 0 := by
      rw [unsent, flushed]
      simp
    cases rest : leftBy results (unsent c₁).length with
    | none =>
      rw [rest] at writes
      exact absurd none_left writes.2
    | some left =>
      rw [rest] at writes
      rw [writes.2.2, if_pos (writes.1.symm.trans none_left)]

/-- Every command is answered alike. -/
def pong (n : Nat) (_ : List Bytes) : Outcome Unit (Nat × Bytes) :=
  Outcome.returned (n + 1, str "+PONG\r\n")

/-- A blank line arrives, and its reply can be sent at once. -/
def blankLine : IoEvent := ⟨some ([str "\r\n"], .again), some [.sent 100]⟩

/-- A blank line arrives, and four bytes of its reply can be sent. -/
def blankLineSlow : IoEvent := ⟨some ([str "\r\n"], .again), some [.sent 3, .again]⟩

/-- A command arrives. -/
def pingLine : IoEvent := ⟨some ([str "PING\r\n"], .again), none⟩

/-- A write fails. -/
def brokenPipe : IoEvent := ⟨none, some [.failed]⟩

theorem onInput_blankLine :
    onInput pong 2 (accepted 5) blankLine 0 = Outcome.returned (some .error,
      ⟨5, .writing, [], str "-ERR protocol error\r\n", 0, [], .inputOutput⟩, 0) := rfl

/-- Where the pipe breaks before the whole error reply is sent the law holds; where the reply is
sent at once the connection is a reading one. -/
theorem closing_iff_brokenPipe :
    Obeys pong 2 none [blankLineSlow, brokenPipe] (accepted 5) 0 ∧
      ∃ c₁, onInput pong 2 (accepted 5) blankLine 0 = Outcome.returned (some .error, c₁, 0) ∧
        c₁.state = .writing ∧ (onOutput c₁ blankLine).state = .reading := by
  obtain ⟨overwritten, flushed⟩ :=
    (closing_iff pong 2).2 (accepted 5) 0 blankLine _ 0 (le_refl 0) onInput_blankLine
  refine ⟨((closing_iff pong 2).1 5 [blankLineSlow, brokenPipe] 0).mpr ?_, _, onInput_blankLine,
    overwritten, flushed _ rfl⟩
  intro res c₁ s₁ ran
  cases ran
  rw [if_pos rfl]
  intro left sent
  obtain rfl : 17 = left := Option.some.inj sent
  refine ⟨by decide, ?_⟩
  intro left failed
  cases failed

/-- After the error reply of a blank line the next command is answered. -/
theorem command_after_error :
    ∃ c₁, onInput pong 2 (accepted 5) blankLine 0 = Outcome.returned (some .error, c₁, 0) ∧
      (onOutput c₁ blankLine).state = .reading ∧ Dispatches (onOutput c₁ blankLine) pingLine ∧
      ¬ Obeys pong 2 none [blankLine, pingLine] (accepted 5) 0 := by
  refine ⟨_, onInput_blankLine, by decide, ⟨_, rfl, by decide⟩, ?_⟩
  intro lawful
  obtain ⟨-, -, later⟩ := lawful.2 _ _ _ onInput_blankLine
  exact (later (by decide)).1 rfl ⟨_, rfl, by decide⟩

end FastGraph.Server
