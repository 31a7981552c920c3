import FastGraph.Protocol.Resp

/-!
# One item of an array

An iteration of the loop of `parse_array` either stops it or reads an argument and moves on.
`readItem` is that iteration; what is said about it here holds of every buffer.
-/

namespace FastGraph.RespParser

/-- One iteration of the loop of `parse_array` at `pos`: what ends the parse, or the argument and
the next position. -/
def readItem (buf : Bytes) (pos : Nat) : Except ParseResult (Bytes × Nat) :=
  if buf.length ≤ pos then .error .incomplete
  else if buf[pos]? ≠ some (charByte '$') then .error .error
  else if findCrlf buf pos < 0 then .error .incomplete
  else if buf.length <
      toSizeT (toSizeT (toInt32 (findCrlf buf pos + 2)) + toSizeT (atoi (buf.drop (pos + 1))) + 2)
    then .error .incomplete
  else .ok
    (substr buf (toSizeT (toInt32 (findCrlf buf pos + 2))) (toSizeT (atoi (buf.drop (pos + 1)))),
      toSizeT (toSizeT (toInt32 (findCrlf buf pos + 2)) + toInt32 (atoi (buf.drop (pos + 1)) + 2)))

/-- An iteration of the loop that delivers an argument. -/
structure Iteration where
  pos : Nat
  body : Nat
  arg : Bytes
  next : Nat
  deriving DecidableEq

/-- The iterations of the loop that deliver an argument. -/
def iterations (buf : Bytes) : Nat → Nat → List Iteration
  | 0, _ => []
  | todo + 1, pos =>
    match readItem buf pos with
    | .error _ => []
    | .ok (arg, next) =>
      ⟨pos, toSizeT (toInt32 (findCrlf buf pos + 2)), arg, next⟩ :: iterations buf todo next

/-- The iterations that deliver an argument when `parse_array` is called with the buffer. -/
def arrayIterations (buf : Bytes) : List Iteration :=
  if findCrlf buf 0 < 0 then []
  else iterations buf (atoi (buf.drop 1)).toNat (toSizeT (toInt32 (findCrlf buf 0 + 2)))

variable {buf : Bytes} {pos next todo : Nat} {args args' : List Bytes} {arg : Bytes}

theorem parseArrayLoop_succ (buf : Bytes) (todo pos : Nat) (args : List Bytes) :
    parseArrayLoop buf (todo + 1) pos args =
      match readItem buf pos with
      | .error res => (res, pos, args)
      | .ok (arg, next) => parseArrayLoop buf todo next (args ++ [arg]) := by
  rw [parseArrayLoop]
  unfold readItem
  split
  · rfl
  · split
    · rfl
    · dsimp only
      split
      · rfl
      · split <;> rfl

/-- What an item that is read looks like. -/
structure Reads (buf : Bytes) (pos : Nat) (arg : Bytes) (next : Nat) : Prop where
  inside : pos < buf.length
  marker : buf[pos]? = some (charByte '$')
  line : ∃ i, crlfIndex (buf.drop pos) = some i ∧ 0 ≤ toInt32 (pos + i : Nat)
  fits : toSizeT (toSizeT (toInt32 (findCrlf buf pos + 2)) + toSizeT (atoi (buf.drop (pos + 1))) + 2) ≤
    buf.length
  arg_eq : arg =
    substr buf (toSizeT (toInt32 (findCrlf buf pos + 2))) (toSizeT (atoi (buf.drop (pos + 1))))
  next_eq : next =
    toSizeT (toSizeT (toInt32 (findCrlf buf pos + 2)) + toInt32 (atoi (buf.drop (pos + 1)) + 2))

theorem reads_of_readItem (read : readItem buf pos = .ok (arg, next)) : Reads buf pos arg next := by
  unfold readItem at read
  split at read
  · cases read
  · rename_i inside
    split at read
    · cases read
    · rename_i marker
      split at read
      · cases read
      · rename_i line
        split at read
        · cases read
        · rename_i fits
          cases read
          refine ⟨not_le.mp inside, not_not.mp marker, ?_, not_lt.mp fits, rfl, rfl⟩
          unfold findCrlf at line
          cases found : crlfIndex (buf.drop pos) with
          | none => simp [found] at line
          | some i =>
            rw [found] at line
            exact ⟨i, rfl, not_lt.mp line⟩

/-- An iteration that stops the loop does not complete it. -/
theorem readItem_ne_complete : readItem buf pos ≠ .error .complete := by
  intro read
  unfold readItem at read
  split at read
  · cases read
  · split at read
    · cases read
    · split at read
      · cases read
      · split at read <;> cases read

/-- A complete loop has read an item and then the rest. -/
theorem complete_succ (complete : parseArrayLoop buf (todo + 1) pos args = (.complete, next, args')) :
    ∃ arg mid, readItem buf pos = .ok (arg, mid) ∧
      parseArrayLoop buf todo mid (args ++ [arg]) = (.complete, next, args') := by
  rw [parseArrayLoop_succ] at complete
  cases read : readItem buf pos with
  | error res =>
    rw [read] at complete
    cases complete
    exact absurd read readItem_ne_complete
  | ok x =>
    rw [read] at complete
    exact ⟨x.1, x.2, rfl, complete⟩

/-- The loop only adds to the arguments. -/
theorem complete_args (complete : parseArrayLoop buf todo pos args = (.complete, next, args')) :
    ∃ items, args' = args ++ items ∧ items.length = todo := by
  induction todo generalizing pos args with
  | zero =>
    cases complete
    exact ⟨[], by simp⟩
  | succ todo ih =>
    obtain ⟨arg, mid, -, rest⟩ := complete_succ complete
    obtain ⟨items, same, length⟩ := ih rest
    exact ⟨arg :: items, by simp [same], by simp [length]⟩

/-- What a complete parse of an array has read. -/
theorem complete_parse {out : List Bytes} {rest : Bytes} (star : buf.head? = some (charByte '*'))
    (complete : parse buf out = (.complete, rest, args)) :
    0 ≤ findCrlf buf 0 ∧ ∃ todo pos, (atoi (buf.drop 1)).toNat = todo + 1 ∧
      parseArrayLoop buf (todo + 1) (toSizeT (toInt32 (findCrlf buf 0 + 2))) [] =
        (.complete, pos, args) ∧
      rest = buf.drop pos := by
  have enter : parse buf out = parseArray buf out := by
    cases buf with
    | nil => cases star
    | cons c t =>
      cases star
      simp [parse]
  rw [enter] at complete
  unfold parseArray at complete
  dsimp only at complete
  split at complete
  · cases complete
  · rename_i arrived
    split at complete
    · cases complete
    · rename_i positive
      obtain ⟨todo, count⟩ : ∃ todo, (atoi (buf.drop 1)).toNat = todo + 1 :=
        ⟨(atoi (buf.drop 1)).toNat - 1, by omega⟩
      rw [count] at complete
      refine ⟨not_lt.mp arrived, todo, ?_⟩
      rcases looped : parseArrayLoop buf (todo + 1) (toSizeT (toInt32 (findCrlf buf 0 + 2))) [] with
        ⟨res, pos, args'⟩
      rw [looped] at complete
      cases res with
      | complete =>
        cases complete
        exact ⟨pos, count, rfl, rfl⟩
      | incomplete => cases complete
      | error => cases complete

end FastGraph.RespParser
