import FastGraph.Protocol.Proofs.Grammar

/-!
# Reply frames

What a client takes for one reply, and which results of the encoder are such frames: all but the
lines whose text contains a byte of a line end.
-/

namespace FastGraph.RespEncoder
open RespParser

/-- A text that can stand in a line. -/
def IsText (s : Bytes) : Prop := cr ∉ s ∧ lf ∉ s

instance decidableIsText (s : Bytes) : Decidable (IsText s) :=
  inferInstanceAs (Decidable (cr ∉ s ∧ lf ∉ s))

/-- The frames of single replies. -/
inductive IsReply : Bytes → Prop where
  | simple {s : Bytes} (text : IsText s) : IsReply (charByte '+' :: s ++ crlf)
  | error {s : Bytes} (text : IsText s) : IsReply (charByte '-' :: s ++ crlf)
  | integer {sign ds : Bytes} {n : Nat} (signed : sign = [] ∨ sign = [charByte '-'])
      (numeral : Numeral ds n) : IsReply (charByte ':' :: sign ++ ds ++ crlf)
  | bulk {s frame : Bytes} (bulk : IsBulk s frame) : IsReply frame
  | null : IsReply (str "$-1" ++ crlf)
  | array {items : List Bytes} {ds frames : Bytes} (numeral : Numeral ds items.length)
      (bulks : AreBulks items frames) : IsReply (charByte '*' :: ds ++ crlf ++ frames)

theorem isText_append {s t : Bytes} : IsText (s ++ t) ↔ IsText s ∧ IsText t := by
  simp only [IsText, List.mem_append, not_or]
  tauto

theorem numeral_decimal (n : Nat) : Numeral (decimal n) n where
  nonempty := decimal_ne_nil n
  digits := fun _ mem => isDigit_decimal mem
  value := digitsValue_decimal n

theorem isBulk_bulkString (s : Bytes) : IsBulk s (bulkString s) :=
  ⟨decimal s.length, numeral_decimal s.length, rfl⟩

theorem areBulks_flatMap (items : List Bytes) : AreBulks items (items.flatMap bulkString) := by
  induction items with
  | nil => rfl
  | cons s items ih => exact ⟨bulkString s, items.flatMap bulkString, isBulk_bulkString s, ih, rfl⟩

theorem isReply_bulkString (s : Bytes) : IsReply (bulkString s) := .bulk (isBulk_bulkString s)

theorem isReply_nullBulk : IsReply nullBulk := .null

theorem isReply_array (items : List Bytes) : IsReply (array items) := by
  rw [array_eq]
  exact .array (numeral_decimal items.length) (areBulks_flatMap items)

theorem isReply_integer (n : Int) : IsReply (integer n) := by
  unfold integer decimalInt
  split
  · exact .integer (Or.inr rfl) (numeral_decimal n.natAbs)
  · exact .integer (Or.inl rfl) (numeral_decimal n.natAbs)

/-- A frame that begins as a line is one. -/
theorem IsReply.line {frame : Bytes} (reply : IsReply frame)
    (marker : frame.head? = some (charByte '+') ∨ frame.head? = some (charByte '-')) :
    ∃ c s, IsText s ∧ frame = c :: s ++ crlf := by
  have other {c : UInt8} {rest : Bytes} (starts : frame = c :: rest) :
      c = charByte '+' ∨ c = charByte '-' := by
    rw [starts] at marker
    exact marker.imp Option.some.inj Option.some.inj
  cases reply with
  | simple text => exact ⟨_, _, text, rfl⟩
  | error text => exact ⟨_, _, text, rfl⟩
  | integer signed numeral => exact absurd (other rfl) (by decide)
  | bulk bulk =>
    obtain ⟨ds, -, same⟩ := bulk
    exact absurd (other same) (by decide)
  | null => exact absurd (other rfl) (by decide)
  | array numeral bulks => exact absurd (other rfl) (by decide)

/-- A line is a reply exactly if its text is one. -/
theorem isReply_line_iff {c : UInt8} {s : Bytes} (marker : c = charByte '+' ∨ c = charByte '-') :
    IsReply (c :: s ++ crlf) ↔ IsText s := by
  constructor
  · intro reply
    obtain ⟨c', s', text, same⟩ := reply.line (marker.imp (congrArg some) (congrArg some))
    have tails := (List.cons.inj same).2
    exact List.append_cancel_right tails ▸ text
  · intro text
    rcases marker with rfl | rfl
    · exact .simple text
    · exact .error text

theorem isReply_simpleString_iff {s : Bytes} : IsReply (simpleString s) ↔ IsText s :=
  isReply_line_iff (Or.inl rfl)

theorem isReply_error_iff {msg : Bytes} : IsReply (error msg) ↔ IsText msg := by
  have split : error msg = charByte '-' :: (str "ERR " ++ msg) ++ crlf := rfl
  rw [split, isReply_line_iff (Or.inr rfl), isText_append]
  exact and_iff_right (by decide)

end FastGraph.RespEncoder
