import FastGraph.Net.Proofs.Fragmentation

/-!
# Commands before the end of the input

`do_read` leaves its loop at an end of file without calling `try_parse`, so the commands whose
last bytes arrive in that same event are never dispatched. Those that were complete in an earlier
event have been dispatched by then, once each and in order.
-/

namespace FastGraph.Server
open RespEncoder RespParser

/-- The event brings no end of file, and its writes do not fail. -/
structure Waits (ev : IoEvent) : Prop where
  input : ∀ reads, ev.input = some reads → reads.2 = .again
  output : ∀ results, ev.output = some results → .failed ∉ results

/-- The bytes that an event brings. -/
def received (ev : IoEvent) : Bytes :=
  match ev.input with
  | some reads => reads.1.flatten
  | none => []

/-- Whatever the dispatcher does, the run of the events on a new connection calls it for these
commands, once each and in order, and ends when they have been answered. -/
def Dispatched (fd : Int) (evs : List IoEvent) (cmds : List (List Bytes)) : Prop :=
  ∀ (σ ε : Type) (dispatch : σ → List Bytes → Outcome ε (σ × Bytes)) (fuel : Nat) (s : σ),
    (evs.flatMap received).length < fuel →
    ioRun dispatch fuel evs (accepted fd) s = (do
      let (s, _) ← dispatchAll dispatch cmds s
      pure (none, s))

/-! ### One event -/

theorem awaitInput_fields (c : Conn) :
    (awaitInput c).readBuf = c.readBuf ∧ ((awaitInput c).state = .closing ↔ c.state = .closing) := by
  unfold awaitInput
  split
  · rename_i live
    exact ⟨rfl, by simp [live]⟩
  · exact ⟨rfl, Iff.rfl⟩

theorem doWrite_fields {results : List WriteResult} (succeeds : .failed ∉ results) (c : Conn) :
    (doWrite results c).readBuf = c.readBuf ∧
      ((doWrite results c).state = .closing ↔ c.state = .closing) := by
  induction results generalizing c with
  | nil =>
    unfold doWrite
    split
    · exact ⟨rfl, Iff.rfl⟩
    · exact awaitInput_fields c
  | cons result results ih =>
    have later : .failed ∉ results := fun mem => succeeds (List.mem_cons_of_mem _ mem)
    unfold doWrite
    split
    · cases result with
      | sent extra =>
        dsimp only
        split <;> exact ih later _
      | again => exact ⟨rfl, Iff.rfl⟩
      | failed => exact absurd List.mem_cons_self succeeds
    · exact awaitInput_fields c

theorem onOutput_fields {ev : IoEvent} (waits : Waits ev) (c : Conn) :
    (onOutput c ev).readBuf = c.readBuf ∧
      ((onOutput c ev).state = .closing ↔ c.state = .closing) := by
  unfold onOutput
  split
  · rename_i results output
    exact doWrite_fields (waits.output results output) c
  · exact ⟨rfl, Iff.rfl⟩

section
variable {σ ε : Type} (dispatch : σ → List Bytes → Outcome ε (σ × Bytes)) {fuel : Nat}

/-- An event that is not the last: the commands that are complete after it are dispatched, and
the connection keeps what is left. -/
theorem onIo_waits {ev : IoEvent} (waits : Waits ev) (whole rest : List (List Bytes)) {q : Bytes}
    (c : Conn) (s : σ) (enough : whole.length < fuel) (nonempty : ∀ args ∈ whole ++ rest, args ≠ [])
    (small : ∀ args ∈ whole ++ rest, (array args).length < 2 ^ 31) (left : PartialFrame array rest q)
    (idle : PartialFrame array (whole ++ rest) c.readBuf)
    (buffer : c.readBuf ++ received ev = whole.flatMap array ++ q) (live : c.state ≠ .closing) :
    ∃ after : Bytes → Conn,
      (∀ replies, (after replies).readBuf = q ∧ (after replies).state ≠ .closing) ∧
      onIo dispatch fuel c ev s = (do
        let (s, replies) ← dispatchAll dispatch whole s
        pure (some (after replies), s)) := by
  cases input : ev.input with
  | none =>
    have nothing : received ev = [] := by simp only [received, input]
    rw [nothing, List.append_nil] at buffer
    -- The buffer held no whole command before.
    obtain rfl : whole = [] := by
      cases whole with
      | nil => rfl
      | cons args whole =>
        rw [List.flatMap_cons, List.append_assoc] at buffer
        exact absurd ⟨_, buffer.symm⟩ idle.not_prefix
    obtain ⟨read, closing⟩ := onOutput_fields waits c
    have open_ : (onOutput c ev).state ≠ .closing := fun closed => live (closing.mp closed)
    refine ⟨fun _ => onOutput c ev, fun _ => ⟨by simpa [read] using buffer, open_⟩, ?_⟩
    simp only [onIo, onInput, input, dispatchAll, Outcome.pure_eq, Outcome.returned_bind,
      if_neg open_]
  | some reads =>
    obtain ⟨chunks, ending⟩ := reads
    obtain rfl : ending = .again := waits.input _ input
    have arrived : received ev = chunks.flatten := by simp only [received, input]
    rw [arrived] at buffer
    have loop := tryParseLoop_commands dispatch whole rest
      { c with readBuf := c.readBuf ++ chunks.flatten } s enough nonempty small left buffer
    let parsed := fun replies : Bytes => armWrite { c with
      readBuf := q, args := [], writeBuf := c.writeBuf ++ replies }
    have fields (replies : Bytes) : (onOutput (parsed replies) ev).readBuf = q ∧
        (onOutput (parsed replies) ev).state ≠ .closing := by
      obtain ⟨read, closing⟩ := onOutput_fields waits (parsed replies)
      refine ⟨read.trans (armWrite_readBuf _), ?_⟩
      intro closed
      exact armWrite_state (by exact live) (closing.mp closed)
    refine ⟨fun replies => onOutput (parsed replies) ev, fields, ?_⟩
    simp only [onIo, onInput, input, doRead, tryParse, loop]
    rcases Outcome.cases (dispatchAll dispatch whole s) with h | ⟨e, h⟩ | ⟨⟨s₁, replies⟩, h⟩
    · simp [h]
    · simp [h]
    · simp only [h, Outcome.returned_bind, Outcome.pure_eq]
      rw [if_neg (fields replies).2]

/-- The event of the end of file removes the connection and dispatches nothing. -/
theorem onIo_gone {ev : IoEvent} {chunks : List Bytes} (ends : ev.input = some (chunks, .gone))
    (c : Conn) (s : σ) : onIo dispatch fuel c ev s = Outcome.returned (none, s) := by
  have stays (results : List WriteResult) (d : Conn) (closing : d.state = .closing) :
      (doWrite results d).state = .closing := by
    induction results generalizing d with
    | nil =>
      unfold doWrite
      split
      · exact closing
      · exact (awaitInput_fields d).2.mpr closing
    | cons result results ih =>
      unfold doWrite
      split
      · cases result with
        | sent extra =>
          dsimp only
          split <;> exact ih _ closing
        | again => exact closing
        | failed => rfl
      · exact (awaitInput_fields d).2.mpr closing
  simp only [onIo, onInput, ends, doRead, Outcome.pure_eq, Outcome.returned_bind]
  rw [if_pos]
  unfold onOutput
  split
  · exact stays _ _ rfl
  · rfl

/-- A run up to the end of file dispatches the commands that were complete before its last
event. -/
theorem ioRun_commands (evs : List IoEvent) (waits : ∀ ev ∈ evs, Waits ev) {last : IoEvent}
    {chunks : List Bytes} (ends : last.input = some (chunks, .gone)) (cmds rest : List (List Bytes))
    {q : Bytes} (c : Conn) (s : σ) (enough : cmds.length < fuel)
    (nonempty : ∀ args ∈ cmds ++ rest, args ≠ [])
    (small : ∀ args ∈ cmds ++ rest, (array args).length < 2 ^ 31) (left : PartialFrame array rest q)
    (idle : PartialFrame array (cmds ++ rest) c.readBuf)
    (stream : c.readBuf ++ evs.flatMap received = cmds.flatMap array ++ q)
    (live : c.state ≠ .closing) :
    ioRun dispatch fuel (evs ++ [last]) c s = (do
      let (s, _) ← dispatchAll dispatch cmds s
      pure (none, s)) := by
  induction evs generalizing c s cmds with
  | nil =>
    obtain rfl : cmds = [] := by
      cases cmds with
      | nil => rfl
      | cons args cmds =>
        rw [List.flatMap_nil, List.append_nil, List.flatMap_cons, List.append_assoc] at stream
        exact absurd ⟨_, stream.symm⟩ idle.not_prefix
    simp only [List.nil_append, ioRun, onIo_gone dispatch ends, dispatchAll, Outcome.pure_eq,
      Outcome.returned_bind]
  | cons ev evs ih =>
    have cut : c.readBuf ++ received ev <+: cmds.flatMap array ++ q := by
      rw [← stream, List.flatMap_cons, ← List.append_assoc]
      exact List.prefix_append _ _
    obtain ⟨whole, later, q', split, buffer, left'⟩ :=
      prefix_flatMap_split array _ (left.prefix_flatMap cut)
    rw [List.flatMap_cons, ← List.append_assoc, buffer] at stream
    -- The event completes none of the commands that the whole run does not complete.
    rw [List.append_assoc] at stream
    obtain ⟨cmds', rfl, rfl⟩ := whole_frames_prefix split.symm left stream
    rw [List.append_assoc] at nonempty small idle
    rw [List.length_append] at enough
    have first : whole.length < fuel := by omega
    have short : cmds'.length < fuel := by omega
    obtain ⟨after, fields, ran⟩ := onIo_waits dispatch (waits ev List.mem_cons_self) whole
      (cmds' ++ rest) c s first nonempty small left' idle buffer live
    have rests : ∀ args ∈ cmds' ++ rest, args ≠ [] :=
      fun args mem => nonempty args (List.mem_append_right _ mem)
    have smaller : ∀ args ∈ cmds' ++ rest, (array args).length < 2 ^ 31 :=
      fun args mem => small args (List.mem_append_right _ mem)
    have stream' : q' ++ evs.flatMap received = cmds'.flatMap array ++ q := by
      rw [List.flatMap_append, List.append_assoc] at stream
      exact List.append_cancel_left stream
    rw [List.cons_append, ioRun, ran, dispatchAll_append]
    rcases Outcome.cases (dispatchAll dispatch whole s) with h | ⟨e, h⟩ | ⟨⟨s₁, replies⟩, h⟩
    · simp [h]
    · simp [h]
    · obtain ⟨read, open_⟩ := fields replies
      have rest_run := ih (fun ev mem => waits ev (List.mem_cons_of_mem _ mem)) cmds'
        (after replies) s₁ short rests smaller (by rw [read]; exact left')
        (by rw [read]; exact stream') open_
      simp only [h, Outcome.returned_bind, Outcome.pure_eq, rest_run]
      rcases Outcome.cases (dispatchAll dispatch cmds' s₁) with h | ⟨e, h⟩ | ⟨⟨s₂, more⟩, h⟩ <;>
        simp [h]

end

/-! ### The whole run -/

/-- A dispatcher that only records what it is called for. -/
def recording (log : List (List Bytes)) (args : List Bytes) :
    Outcome Unit (List (List Bytes) × Bytes) :=
  Outcome.returned (log ++ [args], [])

theorem dispatchAll_recording (cmds log : List (List Bytes)) :
    dispatchAll recording cmds log = Outcome.returned (log ++ cmds, []) := by
  induction cmds generalizing log with
  | nil => simp [dispatchAll]
  | cons args cmds ih => simp [dispatchAll, recording, ih]

/-- What a run dispatches is determined. -/
theorem Dispatched.unique {fd : Int} {evs : List IoEvent} {cmds cmds' : List (List Bytes)}
    (first : Dispatched fd evs cmds) (second : Dispatched fd evs cmds') : cmds = cmds' := by
  have same := (first _ _ recording _ [] (Nat.lt_succ_self _)).symm.trans
    (second _ _ recording _ [] (Nat.lt_succ_self _))
  rw [dispatchAll_recording, dispatchAll_recording] at same
  simpa using same

theorem length_le_flatMap_array (cmds : List (List Bytes)) :
    cmds.length ≤ (cmds.flatMap array).length := by
  induction cmds with
  | nil => exact le_refl 0
  | cons args cmds ih =>
    rw [List.flatMap_cons, List.length_append, List.length_cons, array_eq]
    simp only [List.cons_append, List.length_cons]
    omega

/-- A run of events that ends with an end of file, on a stream of commands: those that were
received completely are dispatched, once each and in order, exactly if their bytes had all arrived
before the event that meets the end of file. -/
theorem dispatched_iff (fd : Int) (evs : List IoEvent) (waits : ∀ ev ∈ evs, Waits ev)
    {last : IoEvent} {chunks : List Bytes} (ends : last.input = some (chunks, .gone))
    (cmds rest : List (List Bytes)) {q : Bytes} (nonempty : ∀ args ∈ cmds ++ rest, args ≠ [])
    (small : ∀ args ∈ cmds ++ rest, (array args).length < 2 ^ 31) (left : PartialFrame array rest q)
    (stream : evs.flatMap received ++ chunks.flatten = cmds.flatMap array ++ q) :
    Dispatched fd (evs ++ [last]) cmds ↔ cmds.flatMap array <+: evs.flatMap received := by
  have cut : evs.flatMap received <+: cmds.flatMap array ++ q := ⟨_, stream⟩
  obtain ⟨before, later, q', split, view, left'⟩ :=
    prefix_flatMap_split array _ (left.prefix_flatMap cut)
  have early : Dispatched fd (evs ++ [last]) before := by
    intro σ ε dispatch fuel s enough
    have idle : PartialFrame array (before ++ later) (accepted fd).readBuf := by
      cases whole : before ++ later with
      | nil => exact Or.inl ⟨rfl, rfl⟩
      | cons args more => exact Or.inr ⟨args, more, rfl, List.nil_prefix, by simp [accepted, array_eq]⟩
    have count := length_le_flatMap_array before
    rw [List.flatMap_append, List.length_append, view, List.length_append] at enough
    exact ioRun_commands dispatch evs waits ends before later _ s (by omega) (split ▸ nonempty)
      (split ▸ small) left' idle view (by simp [accepted])
  rw [view] at stream ⊢
  rw [← whole_frames_iff split.symm left' chunks.flatten left stream]
  constructor
  · intro all
    exact early.unique all
  · rintro rfl
    exact early

/-- A command, and the end of file in a later event. -/
theorem dispatched_iff_later :
    Dispatched 5 [⟨some ([array [str "PING"]], .again), none⟩, ⟨some ([], .gone), none⟩]
      [[str "PING"]] :=
  (@dispatched_iff 5 [⟨some ([array [str "PING"]], .again), none⟩]
    (by
      intro ev mem
      rw [List.mem_singleton] at mem
      subst mem
      exact ⟨fun reads same => by cases same; rfl, fun results same => by cases same⟩)
    ⟨some ([], .gone), none⟩ [] rfl [[str "PING"]] [] [] (by decide) (by decide)
    (Or.inl ⟨rfl, rfl⟩) rfl).mpr (List.prefix_refl _)

/-- A command and the end of file in one event. -/
theorem command_lost :
    ¬ Dispatched 5 [⟨some ([array [str "PING"]], .gone), none⟩] [[str "PING"]] := by
  intro all
  have same := all _ _ recording 100 [] (by decide)
  rw [dispatchAll_recording] at same
  have ran : ioRun recording 100 [⟨some ([array [str "PING"]], .gone), none⟩] (accepted 5) [] =
      Outcome.returned (none, []) := rfl
  rw [ran] at same
  simp at same

end FastGraph.Server
