import FastGraph.Protocol.Proofs.ArrayRoundTrip
import FastGraph.Protocol.Proofs.Items

/-!
# What the parser accepts as an array

The frame of an array of bulk strings, with any decimal numerals for its counts, and when a
complete parse has consumed such a frame: exactly if every count and length is written with
digits alone and in range, and every body is followed by a line end. Past the range the sums of
`int`s overflow.
-/

namespace FastGraph.RespParser

/-! ### Frames -/

/-- A decimal numeral for `n`, leading zeros allowed. -/
structure Numeral (ds : Bytes) (n : Nat) : Prop where
  nonempty : ds ≠ []
  digits : ∀ b ∈ ds, isDigit b = true
  value : digitsValue ds = n

/-- A bulk string with the body `s`. -/
def IsBulk (s frame : Bytes) : Prop :=
  ∃ ds, Numeral ds s.length ∧ frame = charByte '$' :: ds ++ crlf ++ s ++ crlf

/-- Bulk strings with these bodies, one after the other. -/
def AreBulks : List Bytes → Bytes → Prop
  | [], frames => frames = []
  | s :: items, frames => ∃ frame rest, IsBulk s frame ∧ AreBulks items rest ∧ frames = frame ++ rest

/-- An array of bulk strings with these bodies. -/
def IsArray (items : List Bytes) (frame : Bytes) : Prop :=
  items ≠ [] ∧ ∃ ds frames, Numeral ds items.length ∧ AreBulks items frames ∧
    frame = charByte '*' :: ds ++ crlf ++ frames

/-! ### Strict buffers -/

/-- The field that the marker at `pos` opens ends at the line end `i` bytes on. -/
def field (b : Bytes) (pos i : Nat) : Bytes := (b.drop (pos + 1)).take (i - 1)

/-- The field behind the marker at `pos` consists of digits, its value is one of an `int`, and so
is the position behind the line end that closes it. -/
structure Plain (b : Bytes) (pos i : Nat) : Prop where
  line : crlfIndex (b.drop pos) = some i
  near : pos + i + 2 < 2 ^ 31
  nonempty : field b pos i ≠ []
  digits : ∀ c ∈ field b pos i, isDigit c = true
  small : digitsValue (field b pos i) < 2 ^ 31

/-- The next items have plain lengths, with the line end that follows each body in the range of an
`int` too. -/
def StrictItems (b : Bytes) : Nat → Nat → Prop
  | 0, _ => True
  | todo + 1, pos => ∃ i, Plain b pos i ∧ digitsValue (field b pos i) + 2 < 2 ^ 31 ∧
      (b.drop (pos + i + 2 + digitsValue (field b pos i))).take 2 = crlf ∧
      StrictItems b todo (pos + i + 2 + digitsValue (field b pos i) + 2)

/-- The count is plain, and so are the items. -/
def Strict (b : Bytes) : Prop :=
  ∃ i, Plain b 0 i ∧ StrictItems b (digitsValue (field b 0 i)) (i + 2)

/-- Neither sum of `int`s in the iteration overflows. -/
structure Iteration.InInts (b : Bytes) (it : Iteration) : Prop where
  line : IsInt (findCrlf b it.pos + 2)
  length : IsInt (atoi (b.drop (it.pos + 1)) + 2)

/-- No sum of `int`s in the parse overflows. -/
structure InInts (b : Bytes) : Prop where
  header : IsInt (findCrlf b 0 + 2)
  items : ∀ it ∈ arrayIterations b, it.InInts b

/-- What a complete parse consumes is the array whose bodies it returns. -/
def Framed (b : Bytes) (out : List Bytes) : Prop :=
  ∀ rest args, parse b out = (.complete, rest, args) →
    ∃ frame, IsArray args frame ∧ b = frame ++ rest

variable {b : Bytes} {pos next todo i : Nat} {args args' : List Bytes} {arg : Bytes}

theorem cr_notMem_digits {ds : Bytes} (digits : ∀ b ∈ ds, isDigit b = true) : cr ∉ ds := by
  intro mem
  have digit := digits cr mem
  revert digit
  decide

theorem crlfIndex_split {l : Bytes} (found : crlfIndex l = some i) :
    l = l.take i ++ crlf ++ l.drop (i + 2) := by
  obtain ⟨first, second⟩ := crlfIndex_some found
  obtain ⟨inside, first⟩ := List.getElem?_eq_some_iff.mp first
  obtain ⟨inside', second⟩ := List.getElem?_eq_some_iff.mp second
  have tail : l.drop i = crlf ++ l.drop (i + 2) := by
    rw [List.drop_eq_getElem_cons inside, List.drop_eq_getElem_cons inside', first, second]
    rfl
  rw [List.append_assoc, ← tail, List.take_append_drop]

/-- A field with the marker before it and the line end behind it. -/
theorem Plain.view (plain : Plain b pos i) {c : UInt8} (marker : b[pos]? = some c) :
    b.drop pos = c :: field b pos i ++ crlf ++ b.drop (pos + i + 2) := by
  obtain ⟨inside, at_pos⟩ := List.getElem?_eq_some_iff.mp marker
  have split := crlfIndex_split plain.line
  have start : b.drop pos = c :: b.drop (pos + 1) := by
    rw [List.drop_eq_getElem_cons inside, at_pos]
  have long : i = (i - 1) + 1 := by
    have some_digit := List.length_pos_iff.mpr plain.nonempty
    rw [field, List.length_take] at some_digit
    omega
  have head : (b.drop pos).take i = c :: field b pos i := by
    rw [start, long, List.take_succ_cons, field, Nat.add_sub_cancel]
  rw [head, List.drop_drop] at split
  exact split

theorem digits_stop (rest : Bytes) : ∀ c, (crlf ++ rest).head? = some c → isDigit c = false := by
  intro c head
  have same : c = cr := by simpa [crlf] using head.symm
  rw [same]
  decide

theorem Plain.atoi_eq (plain : Plain b pos i) {c : UInt8} (marker : b[pos]? = some c) :
    atoi (b.drop (pos + 1)) = digitsValue (field b pos i) := by
  have tail : b.drop (pos + 1) = field b pos i ++ (crlf ++ b.drop (pos + i + 2)) := by
    rw [← List.drop_drop, plain.view marker]
    simp
  rw [tail]
  exact atoi_digits_of_lt plain.nonempty plain.digits plain.small (digits_stop _)

theorem Plain.findCrlf_eq (plain : Plain b pos i) : findCrlf b pos = (pos + i : Nat) := by
  rw [findCrlf, plain.line]
  have near := plain.near
  exact toInt32_of_range (by omega) (by omega)

theorem Plain.start_eq (plain : Plain b pos i) :
    toSizeT (toInt32 (findCrlf b pos + 2)) = pos + i + 2 := by
  have near := plain.near
  rw [plain.findCrlf_eq, toInt32_of_range (by omega) (by omega)]
  unfold toSizeT
  omega

/-- What is read at a plain length. -/
theorem Reads.of_plain (reads : Reads b pos arg next) (plain : Plain b pos i)
    (small : digitsValue (field b pos i) + 2 < 2 ^ 31) :
    next = pos + i + 2 + digitsValue (field b pos i) + 2 ∧ next ≤ b.length ∧
      arg = (b.drop (pos + i + 2)).take (digitsValue (field b pos i)) := by
  have len := plain.atoi_eq reads.marker
  have near := plain.near
  have body := plain.start_eq
  have size : toSizeT (digitsValue (field b pos i) : Int) = digitsValue (field b pos i) := by
    unfold toSizeT
    omega
  have fits := reads.fits
  have at_next := reads.next_eq
  have arg_eq := reads.arg_eq
  rw [len, body, size] at fits arg_eq
  rw [len, body, toInt32_of_range (by omega) (by omega)] at at_next
  refine ⟨?_, ?_, arg_eq⟩
  · rw [at_next]
    unfold toSizeT
    omega
  · rw [at_next]
    unfold toSizeT at fits ⊢
    omega

/-! ### Strict buffers give frames -/

/-- A strict item is the frame of what is read. -/
theorem isBulk_of_plain (reads : Reads b pos arg next) (plain : Plain b pos i)
    (small : digitsValue (field b pos i) + 2 < 2 ^ 31)
    (closed : (b.drop (pos + i + 2 + digitsValue (field b pos i))).take 2 = crlf) :
    ∃ frame, IsBulk arg frame ∧ b.drop pos = frame ++ b.drop next := by
  obtain ⟨at_next, inside, arg_eq⟩ := reads.of_plain plain small
  have length : arg.length = digitsValue (field b pos i) := by
    rw [arg_eq, List.length_take, List.length_drop]
    omega
  refine ⟨_, ⟨field b pos i, ⟨plain.nonempty, plain.digits, length.symm⟩, rfl⟩, ?_⟩
  have split (l : Bytes) (n : Nat) : l = l.take n ++ ((l.drop n).take 2 ++ (l.drop n).drop 2) := by
    rw [List.take_append_drop, List.take_append_drop]
  have body := split (b.drop (pos + i + 2)) (digitsValue (field b pos i))
  rw [List.drop_drop, closed, ← arg_eq, List.drop_drop, ← at_next] at body
  rw [plain.view reads.marker, body]
  simp only [List.append_assoc, List.cons_append]

theorem areBulks_of_strict (strict : StrictItems b todo pos)
    (complete : parseArrayLoop b todo pos args = (.complete, next, args')) :
    ∃ items frames, args' = args ++ items ∧ AreBulks items frames ∧
      b.drop pos = frames ++ b.drop next ∧ items.length = todo := by
  induction todo generalizing pos args with
  | zero =>
    cases complete
    exact ⟨[], [], by simp, rfl, rfl, rfl⟩
  | succ todo ih =>
    obtain ⟨arg, mid, read, rest⟩ := complete_succ complete
    have reads := reads_of_readItem read
    obtain ⟨i, plain, small, closed, strict⟩ := strict
    obtain ⟨at_mid, -, -⟩ := reads.of_plain plain small
    rw [← at_mid] at strict
    obtain ⟨items, frames, same, bulks, view, length⟩ := ih strict rest
    obtain ⟨frame, bulk, first⟩ := isBulk_of_plain reads plain small closed
    refine ⟨arg :: items, frame ++ frames, by simp [same], ⟨frame, frames, bulk, bulks, rfl⟩, ?_,
      by simp [length]⟩
    rw [first, view, List.append_assoc]

/-! ### Frames come from strict buffers -/

/-- Sums that do not overflow take the position no further than an `int` position and an `int`
length reach. -/
theorem Reads.next_le (reads : Reads b pos arg next) (size : b.length < 2 ^ 63)
    (line : IsInt (findCrlf b pos + 2)) (length : IsInt (atoi (b.drop (pos + 1)) + 2)) :
    next ≤ 2 ^ 32 := by
  obtain ⟨i, found, nonneg⟩ := reads.line
  have arrived : 0 ≤ findCrlf b pos := by rwa [findCrlf, found]
  have fits := reads.fits
  have at_next := reads.next_eq
  rw [line.toInt32_eq] at fits at_next
  rw [length.toInt32_eq] at at_next
  obtain ⟨-, high⟩ := line
  obtain ⟨low, high'⟩ := length
  unfold toSizeT at fits at_next
  omega

theorem AreBulks.length_pos {items : List Bytes} {frames : Bytes} (bulks : AreBulks items frames)
    (nonempty : items ≠ []) : 0 < frames.length := by
  cases items with
  | nil => exact absurd rfl nonempty
  | cons s items =>
    obtain ⟨frame, rest, ⟨ds, -, rfl⟩, -, rfl⟩ := bulks
    simp

theorem drop_of_view {u v : Bytes} (view : b.drop pos = u ++ v) : b.drop (pos + u.length) = v := by
  rw [← List.drop_drop, view, List.drop_left]

/-- A line end whose position is that of an `int` with room for two more. -/
theorem near_of_isInt (found : crlfIndex (b.drop pos) = some i) (small : pos + i < 2 ^ 32)
    (arrived : 0 ≤ findCrlf b pos) (line : IsInt (findCrlf b pos + 2)) :
    findCrlf b pos = (pos + i : Nat) ∧ pos + i + 2 < 2 ^ 31 := by
  have at_i : findCrlf b pos = toInt32 (pos + i : Nat) := by rw [findCrlf, found]
  rw [at_i] at arrived
  have inInt := toInt32_nonneg small arrived
  rw [toInt32_of_range (by omega) (by omega)] at at_i
  obtain ⟨-, high⟩ := line
  rw [at_i] at high
  exact ⟨at_i, by omega⟩

/-- Where a marker, a numeral and a line end stand. -/
theorem Numeral.line {mark : UInt8} {ds tail : Bytes} {n : Nat} (numeral : Numeral ds n)
    (other : mark ≠ cr) (view : b.drop pos = mark :: ds ++ crlf ++ tail) :
    crlfIndex (b.drop pos) = some (ds.length + 1) ∧ b.drop (pos + 1) = ds ++ (crlf ++ tail) ∧
      field b pos (ds.length + 1) = ds ∧ b.drop (pos + (ds.length + 1) + 2) = tail := by
  have clean : cr ∉ mark :: ds := by
    rw [List.mem_cons, not_or]
    exact ⟨other.symm, cr_notMem_digits numeral.digits⟩
  have behind : b.drop (pos + 1) = ds ++ (crlf ++ tail) := by
    rw [← List.drop_drop, view]
    simp
  refine ⟨?_, behind, ?_, ?_⟩
  · rw [view, crlfIndex_line _ clean]
    rfl
  · rw [field, Nat.add_sub_cancel, behind, List.take_left]
  · have after := drop_of_view view
    rwa [show (mark :: ds ++ crlf).length = ds.length + 1 + 2 by simp [crlf], ← Nat.add_assoc] at after

/-- A numeral of an `int` is a plain field. -/
theorem Numeral.plain {ds : Bytes} {n : Nat} (numeral : Numeral ds n)
    (line : crlfIndex (b.drop pos) = some (ds.length + 1))
    (field_eq : field b pos (ds.length + 1) = ds) (near : pos + (ds.length + 1) + 2 < 2 ^ 31)
    (small : n < 2 ^ 31) : Plain b pos (ds.length + 1) := by
  refine ⟨line, near, ?_, ?_, ?_⟩
  · rw [field_eq]
    exact numeral.nonempty
  · rw [field_eq]
    exact numeral.digits
  · rw [field_eq, numeral.value]
    exact small

/-- An item that is read as the frame says, near the start of the buffer, is strict. -/
theorem plain_of_isBulk {frame rest : Bytes} (reads : Reads b pos arg next)
    (inLine : IsInt (findCrlf b pos + 2)) (inLength : IsInt (atoi (b.drop (pos + 1)) + 2))
    (bulk : IsBulk arg frame) (view : b.drop pos = frame ++ rest)
    (near : pos + frame.length ≤ 2 ^ 32) :
    ∃ i, Plain b pos i ∧ digitsValue (field b pos i) + 2 < 2 ^ 31 ∧
      (b.drop (pos + i + 2 + digitsValue (field b pos i))).take 2 = crlf ∧
      next = pos + frame.length := by
  obtain ⟨ds, numeral, rfl⟩ := bulk
  have view₁ : b.drop pos = charByte '$' :: ds ++ crlf ++ (arg ++ (crlf ++ rest)) := by
    rw [view]
    simp only [List.append_assoc, List.cons_append]
  obtain ⟨line, tail, field_eq, body⟩ := numeral.line (by decide) view₁
  have lengths := congrArg List.length body
  simp only [List.length_drop, List.length_append, List.length_cons, List.length_nil, crlf] at near lengths
  obtain ⟨i, found, nonneg⟩ := reads.line
  have arrived : 0 ≤ findCrlf b pos := by rwa [findCrlf, found]
  obtain ⟨at_line, inInt⟩ := near_of_isInt line (by omega) arrived inLine
  have len : atoi (b.drop (pos + 1)) = toInt32 (min (2 ^ 63 - 1) arg.length) := by
    rw [tail, atoi_digits numeral.nonempty numeral.digits (digits_stop _), numeral.value]
  have bodyPos : toSizeT (toInt32 (findCrlf b pos + 2)) = pos + (ds.length + 1) + 2 := by
    rw [at_line, toInt32_of_range (by omega) (by omega)]
    unfold toSizeT
    omega
  -- The argument has as many bytes as the length says, so the length has not wrapped.
  have small : arg.length < 2 ^ 31 := by
    have size := congrArg List.length reads.arg_eq
    rw [bodyPos, substr, List.length_take, List.length_drop] at size
    obtain ⟨low, high⟩ := atoi_range (b.drop (pos + 1))
    unfold toSizeT at size
    omega
  have len_eq : atoi (b.drop (pos + 1)) = arg.length := by
    rw [len, min_eq_right (by omega), toInt32_of_range (by omega) (by omega)]
  have short : arg.length + 2 < 2 ^ 31 := by
    obtain ⟨-, high⟩ := inLength
    rw [len_eq] at high
    omega
  have plain := numeral.plain line field_eq inInt small
  refine ⟨ds.length + 1, plain, ?_, ?_, ?_⟩
  · rw [field_eq, numeral.value]
    exact short
  · rw [field_eq, numeral.value, drop_of_view body]
    rfl
  · obtain ⟨at_next, -, -⟩ := reads.of_plain plain (by rwa [field_eq, numeral.value])
    rw [at_next, field_eq, numeral.value]
    simp only [crlf, List.length_append, List.length_cons, List.length_nil]
    omega

/-- An iteration that delivers an argument, and the ones behind it. -/
theorem iterations_of_read (read : readItem b pos = .ok (arg, next)) (todo : Nat) :
    iterations b (todo + 1) pos =
      ⟨pos, toSizeT (toInt32 (findCrlf b pos + 2)), arg, next⟩ :: iterations b todo next := by
  rw [iterations, read]

theorem strict_of_areBulks {items : List Bytes} {frames rest : Bytes}
    (complete : parseArrayLoop b todo pos args = (.complete, next, args ++ items))
    (ints : ∀ it ∈ iterations b todo pos, it.InInts b)
    (bulks : AreBulks items frames) (view : b.drop pos = frames ++ rest)
    (near : pos + frames.length ≤ 2 ^ 32) : StrictItems b todo pos := by
  induction todo generalizing pos args items frames with
  | zero => trivial
  | succ todo ih =>
    obtain ⟨arg, mid, read, later⟩ := complete_succ complete
    rw [iterations_of_read read, List.forall_mem_cons] at ints
    obtain ⟨⟨inLine, inLength⟩, ints⟩ := ints
    obtain ⟨items', same, -⟩ := complete_args later
    rw [List.append_assoc] at same
    have items_eq := List.append_cancel_left same
    rw [List.singleton_append] at items_eq
    subst items_eq
    obtain ⟨frame, frames', bulk, bulks', rfl⟩ := bulks
    rw [List.length_append] at near
    rw [List.append_assoc] at view
    have reads := reads_of_readItem read
    obtain ⟨i, plain, small, closed, at_mid⟩ :=
      plain_of_isBulk reads inLine inLength bulk view (by omega)
    obtain ⟨next_eq, -, -⟩ := reads.of_plain plain small
    refine ⟨i, plain, small, closed, ?_⟩
    rw [← next_eq]
    rw [show args ++ arg :: items' = (args ++ [arg]) ++ items' by simp] at later
    refine ih later ints bulks' ?_ (by omega)
    rw [at_mid]
    exact drop_of_view view

/-- The positions of a complete loop that reads an item. -/
theorem complete_next_le (size : b.length < 2 ^ 63)
    (complete : parseArrayLoop b (todo + 1) pos args = (.complete, next, args'))
    (ints : ∀ it ∈ iterations b (todo + 1) pos, it.InInts b) : next ≤ 2 ^ 32 := by
  induction todo generalizing pos args with
  | zero =>
    obtain ⟨arg, mid, read, rest⟩ := complete_succ complete
    rw [iterations_of_read read, List.forall_mem_cons] at ints
    cases rest
    exact (reads_of_readItem read).next_le size ints.1.line ints.1.length
  | succ todo ih =>
    obtain ⟨arg, mid, read, rest⟩ := complete_succ complete
    rw [iterations_of_read read, List.forall_mem_cons] at ints
    exact ih rest ints.2

/-! ### The grammar -/

/-- A buffer that starts with a frame is strict if the frame is what a complete parse consumes. -/
theorem strict_of_isArray {out : List Bytes} {rest frame : Bytes} (size : b.length < 2 ^ 63)
    (star : b.head? = some (charByte '*')) (ints : InInts b)
    (complete : parse b out = (.complete, rest, args)) (isArray : IsArray args frame)
    (view : b = frame ++ rest) : Strict b := by
  obtain ⟨nonempty, ds, frames, numeral, bulks, rfl⟩ := isArray
  obtain ⟨arrived, todo, stop, count, looped, rest_eq⟩ := complete_parse star complete
  have items_ints := ints.items
  rw [arrayIterations, if_neg (not_lt.mpr arrived), count] at items_ints
  have stop_le := complete_next_le size looped items_ints
  have length := congrArg List.length view
  rw [rest_eq] at length
  simp only [List.length_append, List.length_cons, List.length_drop, crlf, List.length_nil] at length
  have frames_pos := bulks.length_pos nonempty
  have view₁ : b.drop 0 = charByte '*' :: ds ++ crlf ++ (frames ++ rest) := by
    rw [List.drop_zero, view]
    simp only [List.append_assoc, List.cons_append]
  obtain ⟨line, -, field_eq, items_view⟩ := numeral.line (by decide) view₁
  obtain ⟨-, inInt⟩ := near_of_isInt line (by omega) arrived ints.header
  obtain ⟨items, same, items_length⟩ := complete_args looped
  rw [List.nil_append] at same
  rw [← same] at items_length
  obtain ⟨-, high⟩ := atoi_range (b.drop 1)
  have plain : Plain b 0 (ds.length + 1) := numeral.plain line field_eq inInt (by omega)
  have start := plain.start_eq
  rw [Nat.zero_add] at start
  rw [start] at looped items_ints
  refine ⟨ds.length + 1, plain, ?_⟩
  rw [field_eq, numeral.value, items_length]
  have looped' : parseArrayLoop b (todo + 1) (ds.length + 1 + 2) [] =
      (.complete, stop, [] ++ args) := looped
  rw [Nat.zero_add] at items_view
  exact strict_of_areBulks looped' items_ints bulks items_view (by omega)

/-- What a complete parse of a strict buffer consumes is a frame. -/
theorem isArray_of_strict {out : List Bytes} {rest : Bytes} (star : b.head? = some (charByte '*'))
    (complete : parse b out = (.complete, rest, args)) (strict : Strict b) :
    ∃ frame, IsArray args frame ∧ b = frame ++ rest := by
  have marker : b[0]? = some (charByte '*') := by rwa [← List.head?_eq_getElem?]
  obtain ⟨i, plain, items⟩ := strict
  obtain ⟨-, todo, stop, count, looped, rfl⟩ := complete_parse star complete
  have start := plain.start_eq
  rw [Nat.zero_add] at start
  have count_eq := plain.atoi_eq marker
  rw [Nat.zero_add] at count_eq
  have todo_eq : digitsValue (field b 0 i) = todo + 1 := by omega
  rw [start] at looped
  rw [todo_eq] at items
  obtain ⟨bodies, frames, same, bulks, view, length⟩ := areBulks_of_strict items looped
  rw [List.nil_append] at same
  subst same
  refine ⟨_, ⟨?_, field b 0 i, frames, ?_, bulks, rfl⟩, ?_⟩
  · intro none
    rw [none] at length
    cases length
  · exact ⟨plain.nonempty, plain.digits, by rw [todo_eq, length]⟩
  · have whole := plain.view marker
    rw [List.drop_zero, Nat.zero_add, view] at whole
    rw [List.append_assoc]
    exact whole

/-- What a complete parse of a strict buffer has consumed is a frame, and unless a sum of `int`s
overflows only strict buffers have that. -/
theorem isArray_iff_strict (size : b.length < 2 ^ 63) (star : b.head? = some (charByte '*'))
    (out : List Bytes) :
    (((parse b out).1 = .complete → Strict b) → Framed b out) ∧
      (InInts b → (Framed b out ↔ ((parse b out).1 = .complete → Strict b))) := by
  have framed (strict : (parse b out).1 = .complete → Strict b) : Framed b out := by
    intro rest args complete
    exact isArray_of_strict star complete (strict (by rw [complete]))
  refine ⟨framed, fun ints => ⟨?_, framed⟩⟩
  intro framed complete
  rcases parsed : parse b out with ⟨res, rest, args⟩
  rw [parsed] at complete
  cases complete
  obtain ⟨frame, isArray, view⟩ := framed rest args parsed
  exact strict_of_isArray size star ints parsed isArray view

theorem isArray_iff_strict_ping :
    ∃ frame, IsArray [str "PING"] frame ∧
      str "*1\r\n$4\r\nPING\r\n*1" = frame ++ str "*1" := by
  have strict : Strict (str "*1\r\n$4\r\nPING\r\n*1") :=
    ⟨2, ⟨by decide, by decide, by decide, List.all_eq_true.mp (by decide), by decide⟩,
      2, ⟨by decide, by decide, by decide, List.all_eq_true.mp (by decide), by decide⟩,
      by decide, by decide, trivial⟩
  exact (isArray_iff_strict (by decide) (by decide) []).1 (fun _ => strict) (str "*1") [str "PING"]
    (by decide)

/-- An item with a negative length and no body is accepted as an empty argument. -/
theorem parse_negative_item :
    parse (str "*1\r\n$-2\r\n") [] = (.complete, [], [[]]) ∧
      ¬ ∃ frame, IsArray [[]] frame ∧ str "*1\r\n$-2\r\n" = frame ++ [] := by
  refine ⟨by decide, ?_⟩
  rintro ⟨_, ⟨-, ds, _, count, ⟨_, _, ⟨ds', len, rfl⟩, rfl, rfl⟩, rfl⟩, view⟩
  -- Two numerals and three line ends do not fit into nine bytes.
  have length := congrArg List.length view
  have total : (str "*1\r\n$-2\r\n").length = 9 := by decide
  rw [total] at length
  simp only [List.length_append, List.length_cons, List.length_nil, crlf] at length
  have count_pos := List.length_pos_iff.mpr count.nonempty
  have len_pos := List.length_pos_iff.mpr len.nonempty
  omega

end FastGraph.RespParser
