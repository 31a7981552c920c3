import FastGraph.Protocol.Proofs.ArrayRoundTrip
import FastGraph.Protocol.Proofs.Replies

/-!
# Streams of replies

A stream of replies can be split into replies in one way only, however much of it has arrived:
no reply is the beginning of another one.
-/

namespace FastGraph.RespEncoder

/-- What a reply says. -/
inductive Frame where
  | simple (s : Bytes)
  | error (msg : Bytes)
  | integer (n : Int)
  | bulk (s : Bytes)
  | null
  | array (items : List Bytes)
  deriving DecidableEq, Repr

namespace Frame

/-- The reply, as the encoder writes it. -/
def encode : Frame → Bytes
  | simple s => simpleString s
  | error msg => RespEncoder.error msg
  | integer n => RespEncoder.integer n
  | bulk s => bulkString s
  | null => nullBulk
  | array items => RespEncoder.array items

/-- The text of a line does not end it. -/
def Clean : Frame → Prop
  | simple s | error s => IsText s
  | _ => True

/-- The first byte of a reply. -/
def marker : Frame → UInt8
  | simple _ => charByte '+'
  | error _ => charByte '-'
  | integer _ => charByte ':'
  | bulk _ | null => charByte '$'
  | array _ => charByte '*'

theorem encode_eq_cons (f : Frame) : ∃ body, f.encode = f.marker :: body := by
  cases f with
  | array items =>
    refine ⟨decimal items.length ++ crlf ++ items.flatMap bulkString, ?_⟩
    exact array_eq items
  | simple | error | integer | bulk | null => exact ⟨_, rfl⟩

end Frame

/-- Lines that a stream begins with. -/
theorem line_append_inj {s t rest rest' : Bytes} (clean : cr ∉ s) (clean' : cr ∉ t)
    (same : s ++ crlf ++ rest = t ++ crlf ++ rest') : s = t ∧ rest = rest' := by
  have lengths := congrArg RespParser.crlfIndex same
  rw [RespParser.crlfIndex_line rest clean, RespParser.crlfIndex_line rest' clean',
    Option.some.injEq] at lengths
  obtain ⟨lines, rests⟩ := List.append_inj same (by simp only [List.length_append, lengths])
  exact ⟨List.append_cancel_right lines, rests⟩

theorem cr_notMem_decimalInt (n : Int) : cr ∉ decimalInt n := by
  unfold decimalInt
  split
  · intro mem
    rcases List.mem_cons.mp mem with same | mem
    · revert same
      decide
    · exact RespParser.cr_notMem_decimal _ mem
  · exact RespParser.cr_notMem_decimal _

/-- The length of a string is not the one that stands for no string. -/
theorem bulkString_ne_nullBulk {s rest rest' : Bytes} :
    bulkString s ++ rest ≠ nullBulk ++ rest' := by
  intro same
  cases digits : decimal s.length with
  | nil => exact decimal_ne_nil _ digits
  | cons b ds =>
    have digit : isDigit b = true := isDigit_decimal (n := s.length) (by simp [digits])
    have second : b = charByte '-' := by
      simp only [bulkString, digits, nullBulk, List.cons_append] at same
      exact (List.cons.inj (List.cons.inj same).2).1
    rw [second] at digit
    revert digit
    decide

theorem array_append_inj {items items' : List Bytes} {rest rest' : Bytes}
    (same : array items ++ rest = array items' ++ rest') : items = items' ∧ rest = rest' := by
  have framed : charByte '*' :: decimal items.length ++ crlf ++ (items.flatMap bulkString ++ rest) =
      charByte '*' :: decimal items'.length ++ crlf ++ (items'.flatMap bulkString ++ rest') := by
    simpa only [RespParser.array_eq_header, List.append_assoc] using same
  obtain ⟨lengths, bodies⟩ := RespParser.header_append_inj (c := '*') (by decide) framed
  clear same framed
  induction items generalizing items' with
  | nil =>
    rw [List.length_nil, eq_comm, List.length_eq_zero_iff] at lengths
    subst lengths
    exact ⟨rfl, bodies⟩
  | cons item items ih =>
    cases items' with
    | nil => cases lengths
    | cons item' items' =>
      rw [List.flatMap_cons, List.flatMap_cons, List.append_assoc, List.append_assoc] at bodies
      obtain ⟨rfl, later⟩ := RespParser.bulkString_append_inj bodies
      obtain ⟨rfl, rests⟩ := ih (Nat.succ.inj lengths) later
      exact ⟨rfl, rests⟩

/-- A reply at the beginning of a stream can be told from every other one. -/
theorem Frame.encode_append_inj {f g : Frame} {rest rest' : Bytes} (clean : f.Clean)
    (clean' : g.Clean) (same : f.encode ++ rest = g.encode ++ rest') : f = g ∧ rest = rest' := by
  have markers : f.marker = g.marker := by
    obtain ⟨body, shape⟩ := f.encode_eq_cons
    obtain ⟨body', shape'⟩ := g.encode_eq_cons
    rw [shape, shape'] at same
    exact (List.cons.inj same).1
  have apart {a b : Char} (equal : charByte a = charByte b) (other : charByte a ≠ charByte b) :
      f = g ∧ rest = rest' := absurd equal other
  cases f with
  | simple s =>
    cases g with
    | simple t =>
      have tails : s ++ crlf ++ rest = t ++ crlf ++ rest' := (List.cons.inj same).2
      obtain ⟨rfl, rests⟩ := line_append_inj clean.1 clean'.1 tails
      exact ⟨rfl, rests⟩
    | error | integer | bulk | null | array => exact apart markers (by decide)
  | error s =>
    cases g with
    | error t =>
      have cleans {u : Bytes} (text : IsText u) : cr ∉ str "ERR " ++ u := by
        rw [List.mem_append, not_or]
        exact ⟨by decide, text.1⟩
      have tails : str "ERR " ++ s ++ crlf ++ rest = str "ERR " ++ t ++ crlf ++ rest' :=
        (List.cons.inj same).2
      obtain ⟨texts, rests⟩ := line_append_inj (cleans clean) (cleans clean') tails
      rw [List.append_cancel_left texts]
      exact ⟨rfl, rests⟩
    | simple | integer | bulk | null | array => exact apart markers (by decide)
  | integer n =>
    cases g with
    | integer m =>
      have tails : decimalInt n ++ crlf ++ rest = decimalInt m ++ crlf ++ rest' :=
        (List.cons.inj same).2
      obtain ⟨numerals, rests⟩ :=
        line_append_inj (cr_notMem_decimalInt n) (cr_notMem_decimalInt m) tails
      rw [decimalInt_injective numerals]
      exact ⟨rfl, rests⟩
    | simple | error | bulk | null | array => exact apart markers (by decide)
  | bulk s =>
    cases g with
    | bulk t =>
      obtain ⟨rfl, rests⟩ := RespParser.bulkString_append_inj same
      exact ⟨rfl, rests⟩
    | null => exact absurd same bulkString_ne_nullBulk
    | simple | error | integer | array => exact apart markers (by decide)
  | null =>
    cases g with
    | null => exact ⟨rfl, List.append_cancel_left same⟩
    | bulk t => exact absurd same.symm bulkString_ne_nullBulk
    | simple | error | integer | array => exact apart markers (by decide)
  | array items =>
    cases g with
    | array items' =>
      obtain ⟨rfl, rests⟩ := array_append_inj same
      exact ⟨rfl, rests⟩
    | simple | error | integer | bulk | null => exact apart markers (by decide)

/-- Replies that the beginning of a stream can be split into are the first ones of the stream. -/
theorem Frame.prefix_of_encode {fs gs : List Frame} (cleans : ∀ f ∈ fs, f.Clean)
    (cleans' : ∀ g ∈ gs, g.Clean) (arrived : fs.flatMap encode <+: gs.flatMap encode) :
    fs <+: gs := by
  induction fs generalizing gs with
  | nil => exact List.nil_prefix
  | cons f fs ih =>
    obtain ⟨rest, same⟩ := arrived
    rw [List.flatMap_cons, List.append_assoc] at same
    cases gs with
    | nil =>
      obtain ⟨body, shape⟩ := f.encode_eq_cons
      rw [shape] at same
      cases same
    | cons g gs =>
      rw [List.flatMap_cons] at same
      obtain ⟨rfl, later⟩ := encode_append_inj (cleans f List.mem_cons_self)
        (cleans' g List.mem_cons_self) same
      have tails := ih (fun f mem => cleans f (List.mem_cons_of_mem _ mem))
        (fun g mem => cleans' g (List.mem_cons_of_mem _ mem)) ⟨rest, later⟩
      exact List.cons_prefix_cons.mpr ⟨rfl, tails⟩

end FastGraph.RespEncoder
