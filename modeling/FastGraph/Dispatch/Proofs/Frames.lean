import FastGraph.Dispatch.Proofs.Parts
import FastGraph.Dispatch.Proofs.Replies
import FastGraph.Protocol.Proofs.Frames

/-!
# One reply for each command

A client that takes replies off the front of what it has received gets the answers to its first
commands, one for each, and nothing else.
-/

namespace FastGraph.Dispatcher
open Program RespEncoder

variable {W D : Type}

/-- Some clean frame is written as the reply. -/
def Framed (reply : Bytes) : Prop := ∃ f : Frame, f.Clean ∧ reply = f.encode

theorem Answer.framed {reply : Bytes} (answer : Answer reply) : Framed reply := by
  cases answer with
  | status text => exact ⟨.simple _, text, rfl⟩
  | integer n => exact ⟨.integer n, trivial, rfl⟩
  | bulk s => exact ⟨.bulk s, trivial, rfl⟩
  | null => exact ⟨.null, trivial, rfl⟩
  | items items => exact ⟨.array items, trivial, rfl⟩

theorem framed_error {msg : Bytes} (text : IsText msg) : Framed (RespEncoder.error msg) :=
  ⟨.error msg, text, rfl⟩

section
variable [Zero W] [One W] [Add W] [LT W] [DecidableLT W]
variable [Inhabited D] [BEq D] [LT D] [DecidableLT D] [LE D] [DecidableLE D]
variable {lib : FloatLib W D} {env : Env} {d d' : Dispatcher W D} {args : List Bytes} {reply : Bytes}

theorem framed_unknown (h : Handler) {word : Bytes} {words : List Bytes} (text : IsText word) :
    Framed (unknown h (word :: words)) := by
  have quoted (before : Bytes) (clean : IsText before) :
      Framed (RespEncoder.error (before ++ arg (word :: words) 0 ++ str "'")) :=
    framed_error (isText_append.mpr ⟨isText_append.mpr ⟨clean, text⟩, by decide⟩)
  cases h with
  | kv => exact quoted _ (by decide)
  | graph => exact quoted _ (by decide)
  | zset => exact quoted _ (by decide)

/-- The reply is a frame if the bytes of the client in its line do not end it. -/
theorem framed_dispatch (text : IsText (echoed lib env args))
    (returned : dispatch lib env d args = Outcome.returned (d', reply)) : Framed reply := by
  cases args with
  | nil =>
    cases returned
    exact framed_error (by decide)
  | cons word words =>
    cases selected : Branch.select (branches lib env (.ofCommand (toUpper word))) (toUpper word)
        (word :: words) with
    | none =>
      rw [dispatch_missed lib env selected] at returned
      cases returned
      simp only [echoed, selected] at text
      exact framed_unknown _ text
    | some body =>
      obtain ⟨b, mem, named, own, enough⟩ := taken_of_select lib env selected
      by_cases ping : toUpper word = str "PING"
      · rw [dispatch_ping lib env ping] at returned
        cases returned
        simp only [echoed, selected, if_pos ping] at text
        cases words with
        | nil => exact ⟨.simple (str "PONG"), (by decide : IsText (str "PONG")), rfl⟩
        | cons message words => exact ⟨.simple message, text, rfl⟩
      · rw [named] at mem ping
        unfold dispatch at returned
        rw [answer_taken lib env mem own named enough] at returned
        rcases (yields_enclosed lib env mem own ping _).outcome returned with answer | ⟨e, rfl⟩
        · exact answer.framed
        · exact framed_error (isText_append.mpr ⟨by decide, isText_what e⟩)

/-- Each of the commands that are answered gets a frame. -/
theorem framed_dispatchEach {calls : List (Env × List Bytes)} {replies : List Bytes}
    (texts : ∀ c ∈ calls, IsText (echoed lib c.1 c.2))
    (answered : (dispatchEach lib calls).outcome d = Outcome.returned (d', replies)) :
    replies.length = calls.length ∧ ∀ r ∈ replies, Framed r := by
  induction calls generalizing d replies with
  | nil =>
    cases answered
    exact ⟨rfl, by simp⟩
  | cons c calls ih =>
    obtain ⟨d₁, reply, rest, first, later, rfl⟩ := runAll_cons.mp answered
    obtain ⟨length, framed⟩ := ih (fun c mem => texts c (List.mem_cons_of_mem _ mem)) later
    refine ⟨by simp [length], ?_⟩
    intro r mem
    rcases List.mem_cons.mp mem with rfl | mem
    · exact framed_dispatch (texts c List.mem_cons_self) first
    · exact framed r mem

omit [Zero W] [One W] [Add W] [LT W] [DecidableLT W] [Inhabited D] [BEq D] [LT D] [DecidableLT D]
  [LE D] [DecidableLE D] in
theorem exists_frames {replies : List Bytes} (framed : ∀ r ∈ replies, Framed r) :
    ∃ frames : List Frame, (∀ f ∈ frames, f.Clean) ∧ replies = frames.map Frame.encode := by
  induction replies with
  | nil => exact ⟨[], by simp, rfl⟩
  | cons r replies ih =>
    obtain ⟨f, clean, rfl⟩ := framed r List.mem_cons_self
    obtain ⟨frames, cleans, rfl⟩ := ih fun r mem => framed r (List.mem_cons_of_mem _ mem)
    exact ⟨f :: frames, by simpa using ⟨clean, cleans⟩, rfl⟩

/-- The replies to a sequence of commands are one frame for each command, and whatever has arrived
of them can be split into frames only as the first ones of these. -/
theorem replies_decode {calls : List (Env × List Bytes)} {replies : List Bytes}
    (texts : ∀ c ∈ calls, IsText (echoed lib c.1 c.2))
    (answered : (dispatchEach lib calls).outcome d = Outcome.returned (d', replies)) :
    ∃ frames : List Frame, frames.length = calls.length ∧ replies = frames.map Frame.encode ∧
      ∀ received : List Frame, (∀ f ∈ received, f.Clean) →
        received.flatMap Frame.encode <+: replies.flatten → received <+: frames := by
  obtain ⟨length, framed⟩ := framed_dispatchEach texts answered
  obtain ⟨frames, cleans, rfl⟩ := exists_frames framed
  rw [List.length_map] at length
  refine ⟨frames, length, rfl, ?_⟩
  intro received clean arrived
  refine Frame.prefix_of_encode clean cleans ?_
  rwa [List.flatMap_def (l := frames)]

end

/-- A key is stored and read back. -/
theorem replies_decode_set_get :
    ∃ frames : List Frame, frames.length = 2 ∧
      [str "+OK\r\n", str "$1\r\nv\r\n"] = frames.map Frame.encode ∧
      ∀ received : List Frame, (∀ f ∈ received, f.Clean) →
        received.flatMap Frame.encode <+: [str "+OK\r\n", str "$1\r\nv\r\n"].flatten →
        received <+: frames := by
  obtain ⟨d', answered⟩ : ∃ d', (dispatchEach wholeLib [(calmEnv, [str "SET", str "k", str "v"]),
      (calmEnv, [str "GET", str "k"])]).outcome fresh =
        Outcome.returned (d', [str "+OK\r\n", str "$1\r\nv\r\n"]) := ⟨_, rfl⟩
  exact replies_decode (by decide) answered

end FastGraph.Dispatcher
