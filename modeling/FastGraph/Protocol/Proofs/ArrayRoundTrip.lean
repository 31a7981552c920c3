import FastGraph.Misc.Stream
import FastGraph.Protocol.Encoder
import FastGraph.Protocol.Resp

/-!
# The parser reads what the encoder writes

`parse` on a buffer that begins with the encoding of a command is complete, and on a
proper prefix of an encoding it is incomplete. The encoding is below `2^31` bytes, so the
`int` positions of `find_crlf` and the `size_t` positions of `parse_array` are exact, whatever
else is in the buffer.
-/

namespace FastGraph.RespParser
open RespEncoder

/-! ### Line ends -/

theorem crlfIndex_some {l : Bytes} {i : Nat} (found : crlfIndex l = some i) :
    l[i]? = some cr ∧ l[i + 1]? = some lf := by
  induction l generalizing i with
  | nil => simp [crlfIndex] at found
  | cons a l ih =>
    cases l with
    | nil => simp [crlfIndex] at found
    | cons b l =>
      unfold crlfIndex at found
      split at found
      · rename_i here
        cases found
        simp [here.1, here.2]
      · obtain ⟨j, later, rfl⟩ := Option.map_eq_some_iff.mp found
        simpa using ih later

/-- The first line end after a line without a carriage return. -/
theorem crlfIndex_line {line : Bytes} (rest : Bytes) (clean : cr ∉ line) :
    crlfIndex (line ++ crlf ++ rest) = some line.length := by
  induction line with
  | nil => simp [crlf, crlfIndex]
  | cons a line ih =>
    have ha : a ≠ cr := fun h => clean (by simp [h])
    have hl : cr ∉ line := fun h => clean (List.mem_cons_of_mem _ h)
    have later := ih hl
    cases form : line ++ crlf ++ rest with
    | nil => simp [crlf] at form
    | cons b l =>
      rw [List.cons_append, List.cons_append, form]
      rw [form] at later
      simp [crlfIndex, ha, later]

/-- A line that has not arrived to its end has no line end. -/
theorem crlfIndex_cut {line q : Bytes} (clean : cr ∉ line) (pre : q <+: line ++ crlf)
    (short : q ≠ line ++ crlf) : crlfIndex q = none := by
  cases found : crlfIndex q with
  | none => rfl
  | some i =>
    exfalso
    obtain ⟨hcr, hlf⟩ := crlfIndex_some found
    have less : q.length < (line ++ crlf).length := by
      rcases Nat.lt_or_ge q.length (line ++ crlf).length with h | h
      · exact h
      · exact absurd (pre.eq_of_length (Nat.le_antisymm pre.length_le h)) short
    obtain ⟨inside, _⟩ := List.getElem?_eq_some_iff.mp hlf
    have bound : i < line.length := by simp [crlf] at less; omega
    obtain ⟨tail, whole⟩ := pre
    have at_i : (line ++ crlf)[i]? = some cr := by
      rw [← whole, List.getElem?_append_left (by omega), hcr]
    rw [List.getElem?_append_left bound] at at_i
    exact clean (List.mem_of_getElem? at_i)

theorem cr_notMem_decimal (n : Nat) : cr ∉ decimal n := by
  intro mem
  have digit := isDigit_decimal mem
  revert digit
  decide

/-- A header line: a marker and a count. -/
theorem cr_notMem_header {c : Char} (n : Nat) (marker : charByte c ≠ cr) :
    cr ∉ charByte c :: decimal n := by
  simp only [List.mem_cons, not_or]
  exact ⟨marker.symm, cr_notMem_decimal n⟩

/-- `find_crlf` in a buffer that shows a header line at `pos`. -/
theorem findCrlf_header {buf line rest : Bytes} {pos : Nat} (near : pos + line.length < 2 ^ 31)
    (view : buf.drop pos = line ++ crlf ++ rest) (clean : cr ∉ line) :
    findCrlf buf pos = (pos + line.length : Nat) := by
  unfold findCrlf
  rw [view, crlfIndex_line rest clean]
  exact toInt32_of_range (by omega) (by omega)

theorem findCrlf_cut {buf line : Bytes} {pos : Nat} (clean : cr ∉ line)
    (pre : buf.drop pos <+: line ++ crlf) (short : buf.drop pos ≠ line ++ crlf) :
    findCrlf buf pos = -1 := by
  unfold findCrlf
  rw [crlfIndex_cut clean pre short]

/-! ### The items of an array -/

/-- A count that a line end follows reads back. -/
theorem atoi_header {n : Nat} (rest : Bytes) (small : n < 2 ^ 31) :
    atoi (decimal n ++ crlf ++ rest) = n := by
  rw [List.append_assoc]
  apply atoi_decimal small
  intro b hb
  have head : b = cr := by simpa [crlf] using hb.symm
  subst head
  decide

/-- One iteration of the loop at a complete `$` header. -/
theorem parseArrayLoop_header {buf tail : Bytes} {pos n : Nat} (todo : Nat) (args : List Bytes)
    (near : pos + (decimal n).length + 3 < 2 ^ 31) (fits : n + 2 < 2 ^ 31)
    (view : buf.drop pos = charByte '$' :: decimal n ++ crlf ++ tail) :
    parseArrayLoop buf (todo + 1) pos args =
      if tail.length < n + 2 then (.incomplete, pos, args)
      else parseArrayLoop buf todo (pos + ((decimal n).length + n + 5)) (args ++ [tail.take n]) := by
  have length := congrArg List.length view
  simp only [List.length_drop, List.length_append, List.length_cons, crlf, List.length_nil] at length
  have marker : buf[pos]? = some (charByte '$') := by
    have head := congrArg List.head? view
    simpa [List.head?_drop] using head
  have headerEnd : findCrlf buf pos = (pos + ((decimal n).length + 1) : Nat) := by
    rw [findCrlf_header (by simp only [List.length_cons]; omega) view
      (cr_notMem_header n (by decide))]
    simp
  have count : atoi (buf.drop (pos + 1)) = n := by
    rw [← List.drop_drop, view]
    simpa using atoi_header tail (show n < 2 ^ 31 by omega)
  have body : buf.drop (pos + ((decimal n).length + 3)) = tail := by
    rw [← List.drop_drop, view]
    rw [show (decimal n).length + 3 = (charByte '$' :: decimal n ++ crlf).length by simp [crlf]]
    exact List.drop_left
  have bodyPos : toSizeT (toInt32 ((pos + ((decimal n).length + 1) : Nat) + 2)) =
      pos + ((decimal n).length + 3) := by
    rw [toInt32_of_range (by omega) (by omega), toSizeT_of_nonneg (by omega) (by omega)]
    omega
  have lenSize : toSizeT (n : Int) = n := by
    rw [toSizeT_of_nonneg (by omega) (by omega)]
    omega
  have bound : toSizeT ((pos + ((decimal n).length + 3) : Nat) + (n : Nat) + 2 : Int) =
      pos + ((decimal n).length + n + 5) := by
    rw [toSizeT_of_nonneg (by omega) (by omega)]
    omega
  rw [parseArrayLoop, if_neg (by omega), if_neg (by simp [marker])]
  simp only [headerEnd, count, bodyPos, lenSize]
  rw [if_neg (by omega), bound, substr, body]
  by_cases short : tail.length < n + 2
  · rw [if_pos (by omega), if_pos short]
  · have next : toSizeT ((pos + ((decimal n).length + 3) : Nat) + toInt32 ((n : Int) + 2)) =
        pos + ((decimal n).length + n + 5) := by
      rw [toInt32_of_range (by omega) (by omega), toSizeT_of_nonneg (by omega) (by omega)]
      omega
    rw [if_neg (by omega), if_neg short, next]

/-- The loop reads the items of an encoded command. -/
theorem parseArrayLoop_items {buf rest : Bytes} (items : List Bytes) {pos : Nat}
    (args : List Bytes) (near : pos + (items.flatMap bulkString).length < 2 ^ 31)
    (view : buf.drop pos = items.flatMap bulkString ++ rest) :
    parseArrayLoop buf items.length pos args =
      (.complete, pos + (items.flatMap bulkString).length, args ++ items) := by
  induction items generalizing pos args with
  | nil => simp [parseArrayLoop]
  | cons item items ih =>
    have header : buf.drop pos = charByte '$' :: decimal item.length ++ crlf ++
        (item ++ crlf ++ items.flatMap bulkString ++ rest) := by
      rw [view, List.flatMap_cons, bulkString]
      simp
    rw [List.flatMap_cons, List.length_append, length_bulkString] at near
    have next : buf.drop (pos + ((decimal item.length).length + item.length + 5)) =
        items.flatMap bulkString ++ rest := by
      rw [← List.drop_drop, view, List.flatMap_cons, List.append_assoc]
      rw [← length_bulkString item]
      exact List.drop_left
    rw [List.length_cons, parseArrayLoop_header _ _ (by omega) (by omega) header,
      if_neg (by simp [crlf])]
    rw [ih _ (by omega) next]
    simp [length_bulkString]
    omega

/-- The loop waits for the rest of the items of an encoded command. -/
theorem parseArrayLoop_cut {buf : Bytes} (items : List Bytes) {pos : Nat} (args : List Bytes)
    (near : pos + (items.flatMap bulkString).length < 2 ^ 31)
    (pre : buf.drop pos <+: items.flatMap bulkString)
    (short : buf.drop pos ≠ items.flatMap bulkString) :
    (parseArrayLoop buf items.length pos args).1 = .incomplete := by
  induction items generalizing pos args with
  | nil => exact absurd (by simpa using pre) short
  | cons item items ih =>
    rw [List.flatMap_cons, List.length_append, length_bulkString] at near
    have clean : cr ∉ charByte '$' :: decimal item.length := cr_notMem_header _ (by decide)
    have frames : (item :: items).flatMap bulkString =
        (charByte '$' :: decimal item.length ++ crlf) ++
          (item ++ crlf ++ items.flatMap bulkString) := by
      simp [bulkString]
    rw [frames] at pre short
    rcases prefix_append_cases pre with ⟨inHeader, cut⟩ | ⟨tail, view, later⟩
    · -- the cut is in the header: nothing, or a `$` line without its end
      rw [List.length_cons, parseArrayLoop]
      split
      · rfl
      · rename_i room
        have marker : buf[pos]? = some (charByte '$') := by
          cases form : buf.drop pos with
          | nil => simp at form; omega
          | cons b more =>
            have head := congrArg List.head? form
            rw [form] at inHeader
            have same : b = charByte '$' := by
              obtain ⟨t, ht⟩ := inHeader
              simpa using congrArg List.head? ht
            simpa [List.head?_drop, same] using head
        rw [if_neg (by simp [marker])]
        simp [findCrlf_cut clean inHeader cut]
    · rw [List.length_cons, parseArrayLoop_header _ _ (by omega) (by omega) view]
      split
      · rfl
      · -- the whole item has arrived, so the cut is in the items after it
        rename_i arrived
        have body : (item ++ crlf).length = item.length + 2 := by simp [crlf]
        rcases prefix_append_cases later with ⟨inBody, cut⟩ | ⟨q, tailEq, rest⟩
        · have less := inBody.length_le
          have same := inBody.eq_of_length (by omega)
          exact absurd same cut
        · have next : buf.drop (pos + ((decimal item.length).length + item.length + 5)) = q := by
            rw [← List.drop_drop, view, tailEq, ← length_bulkString item, ← List.append_assoc]
            rw [show charByte '$' :: decimal item.length ++ crlf ++ (item ++ crlf) =
              bulkString item by simp [bulkString]]
            exact List.drop_left
          apply ih _ (by omega)
          · rw [next]
            exact rest
          · rw [next]
            intro whole
            apply short
            rw [view, tailEq, whole]

/-! ### Commands -/

variable {args : List Bytes}

theorem items_fit (small : (array args).length < 2 ^ 31) : args.length < 2 ^ 31 := by
  have bound : args.length ≤ (args.flatMap bulkString).length := by
    clear small
    induction args with
    | nil => simp
    | cons item args ih =>
      simp only [List.flatMap_cons, List.length_append, List.length_cons, length_bulkString]
      omega
  rw [array_eq] at small
  simp only [List.length_append, List.length_cons] at small
  omega

theorem array_eq_header (args : List Bytes) : array args =
    (charByte '*' :: decimal args.length ++ crlf) ++ args.flatMap bulkString := by
  rw [array_eq]

/-- Frames that begin with the same header line. -/
theorem header_append_inj {c : Char} {n m : Nat} {rest rest' : Bytes} (marker : charByte c ≠ cr)
    (same : charByte c :: decimal n ++ crlf ++ rest = charByte c :: decimal m ++ crlf ++ rest') :
    n = m ∧ rest = rest' := by
  have lengths := congrArg crlfIndex same
  rw [crlfIndex_line rest (cr_notMem_header n marker),
    crlfIndex_line rest' (cr_notMem_header m marker), Option.some.injEq] at lengths
  obtain ⟨lines, rests⟩ := List.append_inj same (by simp only [List.length_append, lengths])
  obtain ⟨counts, -⟩ := List.append_inj lines lengths
  have values := congrArg digitsValue (List.cons.inj counts).2
  rw [digitsValue_decimal, digitsValue_decimal] at values
  exact ⟨values, rests⟩

/-- The frame of a string ends where it says. -/
theorem bulkString_append_inj {s t rest rest' : Bytes}
    (same : bulkString s ++ rest = bulkString t ++ rest') : s = t ∧ rest = rest' := by
  have framed : charByte '$' :: decimal s.length ++ crlf ++ (s ++ (crlf ++ rest)) =
      charByte '$' :: decimal t.length ++ crlf ++ (t ++ (crlf ++ rest')) := by
    simpa only [bulkString, List.append_assoc] using same
  obtain ⟨lengths, rests⟩ := header_append_inj (c := '$') (by decide) framed
  obtain ⟨strings, tails⟩ := List.append_inj rests lengths
  exact ⟨strings, List.append_cancel_left tails⟩

/-- Different lists of strings have different frames. -/
theorem array_injective : Function.Injective array := by
  intro items items' same
  rw [array_eq_header, array_eq_header] at same
  obtain ⟨lengths, bodies⟩ := header_append_inj (c := '*') (by decide) same
  clear same
  induction items generalizing items' with
  | nil =>
    rw [List.length_nil, eq_comm, List.length_eq_zero_iff] at lengths
    exact lengths.symm
  | cons item items ih =>
    cases items' with
    | nil => cases lengths
    | cons item' items' =>
      rw [List.flatMap_cons, List.flatMap_cons] at bodies
      obtain ⟨rfl, rest⟩ := bulkString_append_inj bodies
      rw [ih (Nat.succ.inj lengths) rest]

/-- `parse_array` at a complete `*` header. -/
theorem parse_header {buf tail : Bytes} {n : Nat} (out : List Bytes)
    (near : (decimal n).length + 3 < 2 ^ 31) (pos : 0 < n) (fits : n < 2 ^ 31)
    (view : buf = charByte '*' :: decimal n ++ crlf ++ tail) :
    parse buf out =
      match parseArrayLoop buf n ((decimal n).length + 3) [] with
      | (.complete, pos, args) => (.complete, buf.drop pos, args)
      | (res, _, _) => (res, buf, out) := by
  have headerEnd : findCrlf buf 0 = ((decimal n).length + 1 : Nat) := by
    have line : buf.drop 0 = charByte '*' :: decimal n ++ crlf ++ tail := by
      rw [List.drop_zero, view]
    rw [findCrlf_header (by simp only [List.length_cons]; omega) line
      (cr_notMem_header n (by decide))]
    simp
  have count : atoi (buf.drop 1) = n := by
    rw [view]
    simpa using atoi_header tail fits
  have items : toSizeT (toInt32 ((((decimal n).length + 1 : Nat) : Int) + 2)) =
      (decimal n).length + 3 := by
    rw [toInt32_of_range (by omega) (by omega), toSizeT_of_nonneg (by omega) (by omega)]
    omega
  have enter : parse buf out = parseArray buf out := by
    rw [view]
    simp [parse]
  have found : ¬ ((((decimal n).length + 1 : Nat) : Int) < 0) := by omega
  have positive : ¬ (n : Int) ≤ 0 := by omega
  have loop : parseArrayLoop buf (n : Int).toNat ((decimal n).length + 3) [] =
      parseArrayLoop buf n ((decimal n).length + 3) [] := by
    rw [Int.toNat_natCast]
  rcases ran : parseArrayLoop buf n ((decimal n).length + 3) [] with ⟨res, stop, args⟩
  rw [ran] at loop
  cases res <;>
    simp only [enter, parseArray, headerEnd, count, items, loop, if_neg found, if_neg positive]

/-- An encoded command is read back from the front of the buffer. -/
theorem parse_array_append (rest : Bytes) (out : List Bytes) (nonempty : args ≠ [])
    (small : (array args).length < 2 ^ 31) :
    parse (array args ++ rest) out = (.complete, rest, args) := by
  have view : array args ++ rest = charByte '*' :: decimal args.length ++ crlf ++
      (args.flatMap bulkString ++ rest) := by
    rw [array_eq_header, List.append_assoc]
  have items : (array args ++ rest).drop ((decimal args.length).length + 3) =
      args.flatMap bulkString ++ rest := by
    rw [view]
    rw [show (decimal args.length).length + 3 =
      (charByte '*' :: decimal args.length ++ crlf).length by simp [crlf]]
    exact List.drop_left
  have stop : (decimal args.length).length + 3 + (args.flatMap bulkString).length =
      (array args).length := by
    rw [array_eq_header]
    simp only [List.length_append, List.length_cons, crlf, List.length_nil]
  rw [parse_header out (by omega) (List.length_pos_iff.mpr nonempty) (items_fit small) view,
    parseArrayLoop_items args [] (by omega) items]
  simp only [stop, List.nil_append, List.drop_left]

/-- On a proper prefix of an encoded command the parser waits and leaves the buffer alone. -/
theorem parse_array_cut {p : Bytes} (out : List Bytes) (nonempty : args ≠ [])
    (small : (array args).length < 2 ^ 31) (pre : p <+: array args) (short : p ≠ array args) :
    parse p out = (.incomplete, p, out) := by
  have countFits := items_fit small
  rw [array_eq_header] at pre short
  rw [array_eq_header, List.length_append, List.length_append, List.length_cons] at small
  simp only [crlf, List.length_cons, List.length_nil] at small
  rcases prefix_append_cases pre with ⟨inHeader, cut⟩ | ⟨tail, view, later⟩
  · cases p with
    | nil => rfl
    | cons b p =>
      have star : b = charByte '*' := by
        obtain ⟨t, ht⟩ := inHeader
        simpa using congrArg List.head? ht
      have noLine : findCrlf (b :: p) 0 = -1 :=
        findCrlf_cut (cr_notMem_header args.length (by decide)) inHeader cut
      simp [parse, star, parseArray] at noLine ⊢
      simp [noLine]
  · rw [parse_header out (by omega) (List.length_pos_iff.mpr nonempty) countFits view]
    have items : p.drop ((decimal args.length).length + 3) = tail := by
      rw [view]
      rw [show (decimal args.length).length + 3 =
        (charByte '*' :: decimal args.length ++ crlf).length by simp [crlf]]
      exact List.drop_left
    have cut : tail ≠ args.flatMap bulkString := by
      intro whole
      exact short (by rw [view, whole])
    rw [← items] at later cut
    have waits := parseArrayLoop_cut args [] (by omega) later cut
    cases result : parseArrayLoop p args.length ((decimal args.length).length + 3) [] with
    | mk res more =>
      rw [result] at waits
      simp only at waits
      subst waits
      rfl

end FastGraph.RespParser
