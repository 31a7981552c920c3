import FastGraph.Dispatch.Proofs.Routing

/-!
# Every reply is a frame

The branches of the handlers answer with results of the encoder that a client reads as one reply.
Only `PING` and the errors that repeat an unknown command put bytes of the client into a line.
-/

namespace FastGraph

namespace Dispatcher
open Program RespEncoder

section
variable {W D : Type}

/-- What a branch answers that is taken: neither an error nor bytes of the client in a line. -/
inductive Answer : Bytes → Prop where
  | status {s : Bytes} (text : IsText s) : Answer (simpleString s)
  | integer (n : Int) : Answer (RespEncoder.integer n)
  | bulk (s : Bytes) : Answer (bulkString s)
  | null : Answer nullBulk
  | items (items : List Bytes) : Answer (array items)

namespace Answer

theorem isReply {reply : Bytes} (answer : Answer reply) : IsReply reply := by
  cases answer with
  | status text => exact isReply_simpleString_iff.mpr text
  | integer n => exact isReply_integer n
  | bulk s => exact isReply_bulkString s
  | null => exact isReply_nullBulk
  | items items => exact isReply_array items

/-- An answer is no error. -/
theorem not_error {reply : Bytes} (answer : Answer reply) : ¬ str "-ERR " <+: reply := by
  intro starts
  have first {c : UInt8} {rest : Bytes} (same : reply = c :: rest) : charByte '-' = c := by
    obtain ⟨text, split⟩ := starts
    rw [same] at split
    exact (List.cons.inj split).1
  cases answer with
  | status text => exact absurd (first rfl) (by decide)
  | integer n => exact absurd (first rfl) (by decide)
  | bulk s => exact absurd (first rfl) (by decide)
  | null => exact absurd (first rfl) (by decide)
  | items items => exact absurd (first (array_eq items)) (by decide)

theorem flag (b : Bool) : Answer (flag b) := .integer _

theorem okReply : Answer okReply := .status (by decide)

theorem idsReply (ids : List Int) : Answer (idsReply ids) := .items _

end Answer

/-- The text of an exception stands in a line. -/
theorem isText_what (e : StdException) : IsText e.what := by
  cases e with
  | number reader error =>
    cases reader with
    | stoi => exact (by decide : IsText (str "stoi"))
    | stoll => exact (by decide : IsText (str "stoll"))
    | stof => exact (by decide : IsText (str "stof"))
    | stod => exact (by decide : IsText (str "stod"))
  | nullString => decide
  | length call => cases call <;> decide

theorem answers_kvBranches (env : Env) {b : Branch (Action W D Bytes)} (mem : b ∈ kvBranches env)
    (other : b.name ≠ str "PING") (args : List Bytes) : Yields (b.body args) Answer := by
  simp only [kvBranches, List.mem_cons, List.not_mem_nil, or_false] at mem
  obtain rfl | rfl | rfl | rfl | rfl | rfl | rfl | rfl | rfl | rfl | rfl | rfl := mem
  · exact absurd rfl other
  · exact .bind fun _ => .bind fun _ => .pure .okReply
  · refine .bind fun v => .pure ?_
    cases v with
    | none => exact .null
    | some v => exact .bulk v
  · exact .bind fun _ => .pure (.flag _)
  · exact .bind fun _ => .pure (.flag _)
  · exact .bind fun _ => .bind fun _ => .pure (.flag _)
  · exact .bind fun _ => .bind fun _ => .pure (.flag _)
  · refine .bind fun ms => ?_
    split
    · exact .pure (.integer _)
    · split
      · exact .pure (.integer _)
      · exact .pure (.integer _)
  · exact .bind fun _ => .pure (.integer _)
  · exact .bind fun _ => .pure (.flag _)
  · exact .bind fun _ => .pure (.integer _)
  · exact .pure .okReply

end

section
variable {W D : Type} [Zero W] [One W] [Add W] [LT W] [DecidableLT W]
variable [Inhabited D] [BEq D] [LT D] [DecidableLT D] [LE D] [DecidableLE D]
variable (lib : FloatLib W D) (env : Env)

theorem answers_graphBranches {b : Branch (Action W D Bytes)} (mem : b ∈ graphBranches lib env)
    (args : List Bytes) : Yields (b.body args) Answer := by
  simp only [graphBranches, List.mem_cons, List.not_mem_nil, or_false] at mem
  obtain rfl | rfl | rfl | rfl | rfl | rfl | rfl | rfl | rfl | rfl | rfl | rfl | rfl | rfl | rfl |
    rfl | rfl | rfl | rfl | rfl | rfl := mem
  · exact .bind fun _ => .bind fun _ => .pure .okReply
  · exact .bind fun _ => .bind fun _ => .pure .okReply
  · exact .bind fun _ => .bind fun _ => .pure .okReply
  · exact .bind fun _ => .bind fun _ => .bind fun _ => .bind fun _ => .pure .okReply
  · exact .bind fun _ => .bind fun _ => .bind fun _ => .pure .okReply
  · refine .bind fun _ => .bind fun info => ?_
    cases info with
    | none => exact .pure .null
    | some info => exact .bind fun _ => .pure (.items _)
  · exact .bind fun _ => .bind fun _ => .pure (.flag _)
  · exact .bind fun _ => .bind fun _ => .bind fun _ => .pure (.flag _)
  · exact .bind fun _ => .bind fun _ => .pure (.items _)
  · exact .bind fun _ => .bind fun _ => .pure (.items _)
  · exact .bind fun _ => .pure (.idsReply _)
  · refine .bind fun _ => .bind fun _ => .bind fun _ => .bind fun path => ?_
    split
    · exact .pure .null
    · exact .pure (.idsReply _)
  · refine .bind fun _ => .bind fun _ => .bind fun path => ?_
    split
    · exact .pure .null
    · exact .pure (.items _)
  · exact .bind fun _ => .bind fun _ => .bind fun _ => .pure (.items _)
  · exact .bind fun _ => .bind fun _ => .pure (.idsReply _)
  · exact .bind fun _ => .pure (.flag _)
  · exact .bind fun _ => .bind fun _ => .pure (.items _)
  · exact .bind fun _ => .pure (.items _)
  · exact .bind fun _ => .bind fun _ => .pure .okReply
  · exact .bind fun _ => .bind fun _ => .bind fun _ => .pure (.idsReply _)
  · exact .bind fun _ => .bind fun _ => .pure (.idsReply _)

omit [Zero W] [One W] [Add W] [LT W] [DecidableLT W] in
theorem answers_zsetBranches {b : Branch (Action W D Bytes)} (mem : b ∈ zsetBranches lib env)
    (own : b.name ∉ Handler.persistent) (args : List Bytes) : Yields (b.body args) Answer := by
  simp only [zsetBranches, List.mem_cons, List.not_mem_nil, or_false] at mem
  obtain rfl | rfl | rfl | rfl | rfl | rfl | rfl | rfl | rfl | rfl := mem
  · exact .bind fun _ => .bind fun _ => .pure (.integer _)
  · exact .bind fun _ => .pure (.flag _)
  · refine .bind fun sc => .pure ?_
    cases sc with
    | none => exact .null
    | some sc => exact .bulk _
  · exact .bind fun _ => .bind fun _ => .bind fun _ => .pure (.items _)
  · exact .bind fun _ => .bind fun _ => .bind fun _ => .pure (.items _)
  · exact .bind fun _ => .pure (.integer _)
  · exact .bind fun _ => .pure (.integer _)
  all_goals exact absurd (by simp [Handler.persistent]) own

/-- The branches that a command can take answer alike, `PING` apart. -/
theorem answers_branches {h : Handler} {b : Branch (Action W D Bytes)} (mem : b ∈ branches lib env h)
    (own : b.name ∉ Handler.persistent) (other : b.name ≠ str "PING") (args : List Bytes) :
    Yields (b.body args) Answer := by
  cases h with
  | kv => exact answers_kvBranches env mem other args
  | graph => exact answers_graphBranches lib env mem args
  | zset => exact answers_zsetBranches lib env mem own args

/-- The bytes of the client that the reply puts into a line. -/
def echoed : List Bytes → Bytes
  | [] => []
  | word :: words =>
    match Branch.select (branches lib env (.ofCommand (toUpper word))) (toUpper word)
      (word :: words) with
    | none => word
    | some _ => if toUpper word = str "PING" then arg (word :: words) 1 else []

variable {d d' : Dispatcher W D} {word reply : Bytes} {words : List Bytes}

theorem dispatch_ping (ping : toUpper word = str "PING") :
    dispatch lib env d (word :: words) = Outcome.returned (d, simpleString
      (if 2 ≤ (word :: words).length then arg (word :: words) 1 else str "PONG")) := by
  have mem : (⟨str "PING", fun _ => true, Dispatcher.ping⟩ : Branch (Action W D Bytes)) ∈
      branches lib env .kv := List.mem_cons_self
  unfold dispatch
  rw [answer_taken lib env mem (show str "PING" ∉ Handler.persistent by decide) ping rfl]
  rfl

/-- A branch other than `PING` answers, or its handler says what it threw. -/
theorem yields_enclosed {h : Handler} {b : Branch (Action W D Bytes)} (mem : b ∈ branches lib env h)
    (own : b.name ∉ Handler.persistent) (other : b.name ≠ str "PING") (args : List Bytes) :
    Yields (enclosed h (b.body args))
      fun reply => Answer reply ∨ ∃ e : StdException, reply = error (str "bad args: " ++ e.what) := by
  have answers : Yields (b.body args) fun reply => Answer reply ∨
      ∃ e : StdException, reply = error (str "bad args: " ++ e.what) := by
    intro d
    refine wp_mono _ ?_ (answers_branches lib env mem own other args d)
    intro r d' answers reply same
    exact Or.inl (answers reply same)
  cases h with
  | kv => exact answers
  | graph => exact answers.tryCatch fun e => .pure (Or.inr ⟨e, rfl⟩)
  | zset => exact answers.tryCatch fun e => .pure (Or.inr ⟨e, rfl⟩)

theorem isReply_unknown_iff (h : Handler) :
    IsReply (unknown h (word :: words)) ↔ IsText word := by
  have quoted (before : Bytes) (text : IsText before) :
      IsReply (error (before ++ arg (word :: words) 0 ++ str "'")) ↔ IsText word := by
    rw [isReply_error_iff, isText_append, isText_append]
    change (IsText before ∧ IsText word) ∧ IsText (str "'") ↔ IsText word
    have quote : IsText (str "'") := by decide
    tauto
  cases h with
  | kv => exact quoted _ (by decide)
  | graph => exact quoted _ (by decide)
  | zset => exact quoted _ (by decide)

/-- The reply is a frame exactly if the bytes of the client in its line do not end it. -/
theorem isReply_iff (args : List Bytes)
    (returned : dispatch lib env d args = Outcome.returned (d', reply)) :
    IsReply reply ↔ IsText (echoed lib env args) := by
  cases args with
  | nil =>
    cases returned
    exact iff_of_true (isReply_error_iff.mpr (by decide)) (by decide : IsText [])
  | cons word words =>
    cases selected : Branch.select (branches lib env (.ofCommand (toUpper word))) (toUpper word)
        (word :: words) with
    | none =>
      have echo : echoed lib env (word :: words) = word := by simp only [echoed, selected]
      rw [dispatch_missed lib env selected] at returned
      cases returned
      rw [echo]
      exact isReply_unknown_iff _
    | some body =>
      by_cases ping : toUpper word = str "PING"
      · have echo : echoed lib env (word :: words) = arg (word :: words) 1 := by
          simp only [echoed, selected, if_pos ping]
        rw [dispatch_ping lib env ping] at returned
        cases returned
        rw [isReply_simpleString_iff, echo]
        cases words with
        | nil => exact iff_of_true (by decide : IsText (str "PONG")) (by decide : IsText [])
        | cons message words => exact Iff.rfl
      · have echo : echoed lib env (word :: words) = [] := by
          simp only [echoed, selected, if_neg ping]
        obtain ⟨b, mem, named, own, enough⟩ := taken_of_select lib env selected
        rw [named] at ping
        unfold dispatch at returned
        rw [answer_taken lib env mem own named enough] at returned
        rw [echo]
        refine iff_of_true ?_ (by decide : IsText [])
        rcases (yields_enclosed lib env mem own ping _).outcome returned with answer | ⟨e, rfl⟩
        · exact answer.isReply
        · rw [isReply_error_iff, isText_append]
          exact ⟨by decide, isText_what e⟩

end

/-- The reply to an unknown command is a frame if its name is a text. -/
theorem isReply_iff_unknown :
    IsReply (str "-ERR unknown command 'HELLO'\r\n") ↔
      IsText (echoed wholeLib calmEnv [str "HELLO", str "\r\n"]) :=
  isReply_iff wholeLib calmEnv (d := fresh) [str "HELLO", str "\r\n"]
    (dispatch_missed wholeLib calmEnv (by decide))

/-- A message that ends its line, as the first of two replies that were not asked for. -/
theorem ping_injects :
    dispatch wholeLib calmEnv fresh [str "PING", str "\r\n:1"] =
      Outcome.returned (fresh, str "+\r\n:1\r\n") ∧ ¬ IsReply (str "+\r\n:1\r\n") := by
  have returned : dispatch wholeLib calmEnv fresh [str "PING", str "\r\n:1"] =
      Outcome.returned (fresh, str "+\r\n:1\r\n") := dispatch_ping wholeLib calmEnv (by decide)
  refine ⟨returned, ?_⟩
  intro reply
  have split : str "+\r\n:1\r\n" = simpleString (str "\r\n:1") := by decide
  rw [split, isReply_simpleString_iff] at reply
  revert reply
  decide

end Dispatcher

end FastGraph
