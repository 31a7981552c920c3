import FastGraph.Protocol.Proofs.ArrayRoundTrip
import FastGraph.Protocol.Proofs.Items

/-!
# Parses of a buffer that grows

What the parser makes of a buffer should not change when more bytes arrive behind it. The
positions it looks at are the same, but a length field that the line end does not close can
read on into the bytes that follow, and a negative length takes in all of them.
-/

namespace FastGraph.RespParser

/-! ### One item -/

variable {b x : Bytes} {pos next todo : Nat} {args args' : List Bytes} {arg : Bytes}

theorem crlfIndex_append {l : Bytes} {i : Nat} (found : crlfIndex l = some i) (x : Bytes) :
    crlfIndex (l ++ x) = some i := by
  induction l generalizing i with
  | nil => simp [crlfIndex] at found
  | cons a l ih =>
    cases l with
    | nil => simp [crlfIndex] at found
    | cons c l =>
      simp only [List.cons_append]
      unfold crlfIndex at found ⊢
      split at found
      · rename_i here
        rw [if_pos here]
        exact found
      · rename_i elsewhere
        rw [if_neg elsewhere]
        obtain ⟨j, later, rfl⟩ := Option.map_eq_some_iff.mp found
        have := ih later
        rw [List.cons_append] at this
        rw [this]
        rfl

/-- A line end lies inside the buffer. -/
theorem crlfIndex_le {l : Bytes} {i : Nat} (found : crlfIndex l = some i) : i + 2 ≤ l.length := by
  obtain ⟨-, second⟩ := crlfIndex_some found
  obtain ⟨inside, -⟩ := List.getElem?_eq_some_iff.mp second
  omega

/-- `find_crlf` in a buffer of less than `2^31` bytes. -/
theorem findCrlf_of_found {i : Nat} (small : b.length < 2 ^ 31)
    (found : crlfIndex (b.drop pos) = some i) :
    findCrlf b pos = (pos + i : Nat) ∧ pos + i + 2 ≤ b.length := by
  have inside := crlfIndex_le found
  rw [List.length_drop] at inside
  refine ⟨?_, by omega⟩
  rw [findCrlf, found]
  exact toInt32_of_range (by omega) (by omega)

theorem drop_append {k : Nat} (inside : k ≤ b.length) (x : Bytes) :
    (b ++ x).drop k = b.drop k ++ x := List.drop_append_of_le_length inside

theorem findCrlf_append {i : Nat} (found : crlfIndex (b.drop pos) = some i) (x : Bytes) :
    findCrlf (b ++ x) pos = findCrlf b pos := by
  have inside := crlfIndex_le found
  rw [List.length_drop] at inside
  rw [findCrlf, findCrlf, drop_append (by omega), crlfIndex_append found, found]

/-- The length field behind `pos` keeps its value whatever follows the buffer. -/
def Settled (b : Bytes) (pos : Nat) : Prop :=
  ∀ x, atoi (b.drop (pos + 1) ++ x) = atoi (b.drop (pos + 1))

/-- Where an item that is read lies. -/
theorem Reads.layout (small : b.length < 2 ^ 31) (reads : Reads b pos arg next) :
    ∃ i, crlfIndex (b.drop pos) = some i ∧ pos + i + 2 ≤ b.length ∧
      toSizeT (toInt32 (findCrlf b pos + 2)) = pos + i + 2 ∧
      0 ≤ (pos + i + 2 : Nat) + (atoi (b.drop (pos + 1)) + 2) ∧
      (next : Int) = (pos + i + 2 : Nat) + (atoi (b.drop (pos + 1)) + 2) ∧ next ≤ b.length := by
  obtain ⟨i, found, -⟩ := reads.line
  obtain ⟨at_i, inside⟩ := findCrlf_of_found small found
  have body : toSizeT (toInt32 (findCrlf b pos + 2)) = pos + i + 2 := by
    rw [at_i, toInt32_of_range (by omega) (by omega), toSizeT_of_nonneg (by omega) (by omega)]
    omega
  obtain ⟨low, high⟩ := atoi_range (b.drop (pos + 1))
  have fits := reads.fits
  have at_next := reads.next_eq
  rw [body] at fits at_next
  have after : atoi (b.drop (pos + 1)) + 2 < 2 ^ 31 := by
    unfold toSizeT at fits
    omega
  rw [toInt32_of_range (by omega) after] at at_next
  refine ⟨i, found, inside, body, ?_, ?_, ?_⟩
  · unfold toSizeT at fits
    omega
  · unfold toSizeT at fits at_next
    omega
  · unfold toSizeT at fits at_next
    omega

/-- An item with a settled length is read again, at the same place, in a longer buffer. -/
theorem readItem_append (small : b.length < 2 ^ 31) (read : readItem b pos = .ok (arg, next))
    (x : Bytes) (same : atoi (b.drop (pos + 1) ++ x) = atoi (b.drop (pos + 1))) :
    readItem (b ++ x) pos =
      .ok (substr (b ++ x) (toSizeT (toInt32 (findCrlf b pos + 2)))
        (toSizeT (atoi (b.drop (pos + 1)))), next) := by
  have reads := reads_of_readItem read
  obtain ⟨i, found, -⟩ := reads.line
  obtain ⟨at_i, -⟩ := findCrlf_of_found small found
  have inside := reads.inside
  have fits := reads.fits
  have len : atoi ((b ++ x).drop (pos + 1)) = atoi (b.drop (pos + 1)) := by
    rw [drop_append (by omega), same]
  have marker : (b ++ x)[pos]? = some (charByte '$') := by
    rw [List.getElem?_append_left inside, reads.marker]
  have line := findCrlf_append found x
  unfold readItem
  rw [len, line, if_neg (by rw [List.length_append]; omega), if_neg (by simp [marker]),
    if_neg (by omega), if_neg (by rw [List.length_append]; omega), reads.next_eq]

/-- A nonnegative length takes in no byte of what follows. -/
theorem readItem_append_of_nonneg (small : b.length < 2 ^ 31)
    (read : readItem b pos = .ok (arg, next)) (x : Bytes)
    (same : atoi (b.drop (pos + 1) ++ x) = atoi (b.drop (pos + 1)))
    (nonneg : 0 ≤ atoi (b.drop (pos + 1))) : readItem (b ++ x) pos = .ok (arg, next) := by
  have reads := reads_of_readItem read
  obtain ⟨i, -, inside, body, -, at_next, bound⟩ := reads.layout small
  have len : toSizeT (atoi (b.drop (pos + 1))) = (atoi (b.drop (pos + 1))).toNat := by
    obtain ⟨-, high⟩ := atoi_range (b.drop (pos + 1))
    exact toSizeT_of_nonneg nonneg (by omega)
  rw [readItem_append small read x same, reads.arg_eq, body, len, substr, substr,
    drop_append (by omega), List.take_append_of_le_length]
  rw [List.length_drop]
  omega

theorem readItem_error (unmarked : b[pos]? ≠ some (charByte '$')) (inside : pos < b.length) :
    readItem b pos = .error .error := by
  rw [readItem, if_neg (not_le.mpr inside), if_pos unmarked]

/-- The iterations that stop the loop with an error. -/
theorem readItem_eq_error (error : readItem b pos = .error .error) :
    pos < b.length ∧ b[pos]? ≠ some (charByte '$') := by
  unfold readItem at error
  split at error
  · cases error
  · rename_i inside
    split at error
    · rename_i unmarked
      exact ⟨not_le.mp inside, unmarked⟩
    · split at error
      · cases error
      · split at error <;> cases error

/-! ### The loop -/

/-- Every length field that the loop reads is settled. -/
def SettledItems (b : Bytes) : Nat → Nat → Prop
  | 0, _ => True
  | todo + 1, pos => ∀ arg next, readItem b pos = .ok (arg, next) →
      Settled b pos ∧ SettledItems b todo next

/-- No length that the loop reads is negative. -/
def NonnegItems (b : Bytes) : Nat → Nat → Prop
  | 0, _ => True
  | todo + 1, pos => ∀ arg next, readItem b pos = .ok (arg, next) →
      0 ≤ atoi (b.drop (pos + 1)) ∧ NonnegItems b todo next

theorem parseArrayLoop_complete_append (small : b.length < 2 ^ 31)
    (complete : parseArrayLoop b todo pos args = (.complete, next, args'))
    (settled : SettledItems b todo pos) (nonneg : NonnegItems b todo pos) (x : Bytes) :
    parseArrayLoop (b ++ x) todo pos args = (.complete, next, args') := by
  induction todo generalizing pos args with
  | zero => exact complete
  | succ todo ih =>
    obtain ⟨arg, mid, read, rest⟩ := complete_succ complete
    obtain ⟨keeps, settled⟩ := settled arg mid read
    obtain ⟨positive, nonneg⟩ := nonneg arg mid read
    have again := readItem_append_of_nonneg small read x (keeps x) positive
    rw [parseArrayLoop_succ, again]
    exact ih rest settled nonneg

theorem parseArrayLoop_error_append (small : b.length < 2 ^ 31)
    (error : (parseArrayLoop b todo pos args).1 = .error) (settled : SettledItems b todo pos)
    (x : Bytes) (args' : List Bytes) :
    (parseArrayLoop (b ++ x) todo pos args').1 = .error := by
  induction todo generalizing pos args args' with
  | zero => cases error
  | succ todo ih =>
    rw [parseArrayLoop_succ] at error ⊢
    cases read : readItem b pos with
    | error res =>
      rw [read] at error
      cases error
      obtain ⟨inside, unmarked⟩ := readItem_eq_error read
      rw [readItem_error (by rwa [List.getElem?_append_left inside])
        (by rw [List.length_append]; omega)]
    | ok item =>
      obtain ⟨arg, mid⟩ := item
      rw [read] at error
      obtain ⟨keeps, settled⟩ := settled arg mid read
      rw [readItem_append small read x (keeps x)]
      exact ih error settled _

/-- The first argument that two complete loops read is the same if all the arguments are. -/
theorem first_arg_eq {b' : Bytes} {pos' mid mid' stop stop' : Nat} {arg' : Bytes}
    (rest : parseArrayLoop b todo mid (args ++ [arg]) = (.complete, stop, args'))
    (rest' : parseArrayLoop b' pos' mid' (args ++ [arg']) = (.complete, stop', args')) : arg = arg' := by
  obtain ⟨items, same, -⟩ := complete_args rest
  obtain ⟨items', same', -⟩ := complete_args rest'
  rw [same, List.append_assoc, List.append_assoc] at same'
  exact (List.cons.inj (List.append_cancel_left same')).1

/-- An item that reads the same argument whatever follows has a settled length that is not
negative. -/
theorem settled_of_item (small : b.length < 2 ^ 31) (read : readItem b pos = .ok (arg, next))
    (again : ∀ x, ∃ stop, readItem (b ++ x) pos = .ok (arg, stop)) :
    Settled b pos ∧ 0 ≤ atoi (b.drop (pos + 1)) := by
  have reads := reads_of_readItem read
  obtain ⟨i, found, inside, body, -, at_next, bound⟩ := reads.layout small
  have arg_eq := reads.arg_eq
  rw [body] at arg_eq
  -- What the item is in a longer buffer, for whatever length is read there.
  have longer (x : Bytes) : arg = substr (b ++ x) (pos + i + 2)
        (toSizeT (atoi (b.drop (pos + 1) ++ x))) ∧
      toSizeT ((pos + i + 2 : Nat) + toSizeT (atoi (b.drop (pos + 1) ++ x)) + 2) ≤
        b.length + x.length := by
    obtain ⟨stop, read'⟩ := again x
    have reads' := reads_of_readItem read'
    have arg_eq' := reads'.arg_eq
    have fits' := reads'.fits
    rw [findCrlf_append found, body, drop_append (by omega)] at arg_eq' fits'
    rw [List.length_append] at fits'
    exact ⟨arg_eq', fits'⟩
  have nonneg : 0 ≤ atoi (b.drop (pos + 1)) := by
    by_contra negative
    obtain ⟨low, -⟩ := atoi_range (b.drop (pos + 1))
    obtain ⟨grown, -⟩ := longer [65]
    rw [atoi_append_end (by decide)] at grown
    have lengths := congrArg List.length grown
    rw [arg_eq, substr, substr, List.length_take, List.length_take, List.length_drop,
      List.length_drop, List.length_append] at lengths
    unfold toSizeT at lengths
    simp only [List.length_cons, List.length_nil] at lengths
    omega
  refine ⟨?_, nonneg⟩
  intro x
  obtain ⟨low, high⟩ := atoi_range (b.drop (pos + 1) ++ x)
  obtain ⟨low', high'⟩ := atoi_range (b.drop (pos + 1))
  obtain ⟨same, fits⟩ := longer x
  have lengths := congrArg List.length same
  rw [arg_eq, substr, substr, List.length_take, List.length_take, List.length_drop,
    List.length_drop, List.length_append] at lengths
  unfold toSizeT at lengths fits
  omega

/-- Where the loop reads the same arguments whatever follows, the lengths are settled and not
negative. -/
theorem settled_of_complete (small : b.length < 2 ^ 31)
    (complete : ∀ x, ∃ stop, parseArrayLoop (b ++ x) todo pos args = (.complete, stop, args')) :
    SettledItems b todo pos ∧ NonnegItems b todo pos := by
  induction todo generalizing pos args with
  | zero => exact ⟨trivial, trivial⟩
  | succ todo ih =>
    have whole := complete []
    rw [List.append_nil] at whole
    obtain ⟨stop, whole⟩ := whole
    obtain ⟨arg, next, read, rest⟩ := complete_succ whole
    have again (x : Bytes) : ∃ mid stop, readItem (b ++ x) pos = .ok (arg, mid) ∧
        parseArrayLoop (b ++ x) todo mid (args ++ [arg]) = (.complete, stop, args') := by
      obtain ⟨stop', whole'⟩ := complete x
      obtain ⟨arg', mid, read', rest'⟩ := complete_succ whole'
      cases first_arg_eq rest rest'
      exact ⟨mid, stop', read', rest'⟩
    obtain ⟨keeps, nonneg⟩ := settled_of_item small read fun x =>
      let ⟨mid, _, read', _⟩ := again x
      ⟨mid, read'⟩
    have later : ∀ x, ∃ stop, parseArrayLoop (b ++ x) todo next (args ++ [arg]) =
        (.complete, stop, args') := by
      intro x
      obtain ⟨mid, stop', read', rest'⟩ := again x
      rw [readItem_append_of_nonneg small read x (keeps x) nonneg] at read'
      cases read'
      exact ⟨stop', rest'⟩
    obtain ⟨settled, nonnegs⟩ := ih later
    constructor
    · intro arg' next' read'
      rw [read] at read'
      cases read'
      exact ⟨keeps, settled⟩
    · intro arg' next' read'
      rw [read] at read'
      cases read'
      exact ⟨nonneg, nonnegs⟩

/-! ### The count -/

/-- Bytes that follow the buffer change the count of an array only if its first item is none. -/
theorem count_append (small : b.length < 2 ^ 31) {i : Nat} (found : crlfIndex b = some i) (x : Bytes) :
    atoi ((b ++ x).drop 1) = atoi (b.drop 1) ∨ readItem (b ++ x) (i + 2) = .error .error := by
  have inside := crlfIndex_le found
  rw [drop_append (by omega)]
  by_cases marked : (b ++ x)[i + 2]? = some (charByte '$')
  · left
    rcases Nat.lt_or_ge (i + 2) b.length with within | behind
    · rw [List.getElem?_append_left within] at marked
      have mem : charByte '$' ∈ b.drop 1 := by
        have at_i : (b.drop 1)[i + 1]? = some (charByte '$') := by
          rw [List.getElem?_drop, show 1 + (i + 1) = i + 2 by omega, marked]
        exact List.mem_of_getElem? at_i
      exact atoi_append_of_mem (by decide) mem x
    · rw [List.getElem?_append_right behind, show i + 2 - b.length = 0 by omega] at marked
      cases x with
      | nil => cases marked
      | cons c x =>
        cases marked
        exact atoi_append_end (by decide) _ x
  · rcases Nat.lt_or_ge (i + 2) (b ++ x).length with within | beyond
    · exact Or.inr (readItem_error marked within)
    · left
      have none : x = [] := by
        rw [List.length_append] at beyond
        exact List.length_eq_zero_iff.mp (by omega)
      rw [none, List.append_nil]

/-! ### The parse -/

/-- What is made of the buffer does not change when more bytes follow it. -/
structure Stable (b : Bytes) (out : List Bytes) : Prop where
  complete : ∀ rest args, parse b out = (.complete, rest, args) →
    ∀ x, parse (b ++ x) out = (.complete, rest ++ x, args)
  error : (parse b out).1 = .error → ∀ x, (parse (b ++ x) out).1 = .error

/-- The length fields that are read of an array have their values whatever follows the buffer,
and if the array is complete they are not negative. -/
def Closed (b : Bytes) (out : List Bytes) : Prop :=
  b.head? = some (charByte '*') → (parse b out).1 ≠ .incomplete →
    SettledItems b (atoi (b.drop 1)).toNat (toSizeT (toInt32 (findCrlf b 0 + 2))) ∧
      ((parse b out).1 = .complete →
        NonnegItems b (atoi (b.drop 1)).toNat (toSizeT (toInt32 (findCrlf b 0 + 2))))

/-- `parse` on a buffer that begins with `*` and shows a line end. -/
theorem parse_array_of_found {i : Nat} (small : i + 2 < 2 ^ 31) (star : b.head? = some (charByte '*'))
    (found : crlfIndex b = some i) (out : List Bytes) :
    parse b out =
      if atoi (b.drop 1) ≤ 0 then (.error, b, out)
      else match parseArrayLoop b (atoi (b.drop 1)).toNat (i + 2) [] with
        | (.complete, pos, args) => (.complete, b.drop pos, args)
        | (res, _, _) => (res, b, out) := by
  have header : findCrlf b 0 = i := by
    rw [findCrlf, List.drop_zero, found]
    simp only [Nat.zero_add]
    exact toInt32_of_range (by omega) (by omega)
  have start : toSizeT (toInt32 ((i : Int) + 2)) = i + 2 := by
    rw [toInt32_of_range (by omega) (by omega)]
    unfold toSizeT
    omega
  cases b with
  | nil => cases star
  | cons c b =>
    cases star
    simp only [parse, if_true, parseArray, header, start]
    exact if_neg (by omega)

theorem parse_array_of_not_found (star : b.head? = some (charByte '*')) (none : crlfIndex b = none)
    (out : List Bytes) : parse b out = (.incomplete, b, out) := by
  cases b with
  | nil => cases star
  | cons c b =>
    cases star
    simp [parse, parseArray, findCrlf, none]

/-- A line is read alike in a longer buffer, and what follows is left. -/
theorem parseInline_append {i : Nat} (small : b.length < 2 ^ 31) (found : crlfIndex (b.drop 0) = some i)
    (x : Bytes) (out : List Bytes) :
    parseInline (b ++ x) out =
      ((parseInline b out).1, (parseInline b out).2.1 ++ x, (parseInline b out).2.2) := by
  obtain ⟨at_i, inside⟩ := findCrlf_of_found small found
  have header := findCrlf_append found x
  have line : substr (b ++ x) 0 (toSizeT (findCrlf b 0)) = substr b 0 (toSizeT (findCrlf b 0)) := by
    rw [at_i, substr, substr, List.drop_zero, List.drop_zero, List.take_append_of_le_length]
    unfold toSizeT
    omega
  have rest : (b ++ x).drop (toSizeT (toInt32 (findCrlf b 0 + 2))) =
      b.drop (toSizeT (toInt32 (findCrlf b 0 + 2))) ++ x := by
    apply drop_append
    rw [at_i, toInt32_of_range (by omega) (by omega)]
    unfold toSizeT
    omega
  have arrived : ¬ findCrlf b 0 < 0 := by omega
  simp only [parseInline, header, line, rest, arrived, if_false]
  split <;> rfl

/-- A parse of a line is stable. -/
theorem stable_inline (small : b.length < 2 ^ 31) (line : b.head? ≠ some (charByte '*'))
    (out : List Bytes) : Stable b out := by
  cases form : b with
  | nil => exact ⟨fun _ _ done => (by cases done), fun error => (by cases error)⟩
  | cons c t =>
    have other : c ≠ charByte '*' := by
      rintro rfl
      exact line (by rw [form]; rfl)
    have enter (x : Bytes) : parse (c :: t ++ x) out = parseInline (c :: t ++ x) out := by
      simp [parse, other]
    rw [← form] at enter ⊢
    have enter₀ := enter []
    rw [List.append_nil] at enter₀
    cases found : crlfIndex (b.drop 0) with
    | none =>
      have header : findCrlf b 0 = -1 := by rw [findCrlf, found]
      have waits : parse b out = (.incomplete, b, out) := by
        rw [enter₀]
        simp [parseInline, header]
      constructor
      · intro rest args done
        rw [waits] at done
        cases done
      · intro error
        rw [waits] at error
        cases error
    | some i =>
      have longer (x : Bytes) := parseInline_append small found x out
      constructor
      · intro rest args done x
        rw [enter₀] at done
        rw [enter, longer, done]
      · intro error x
        rw [enter₀] at error
        rw [enter, longer, error]

theorem start_eq {i : Nat} (small : i + 2 < 2 ^ 31) (found : crlfIndex b = some i) :
    toSizeT (toInt32 (findCrlf b 0 + 2)) = i + 2 := by
  rw [findCrlf, List.drop_zero, found]
  simp only [Nat.zero_add]
  rw [toInt32_of_range (i := (i : Int)) (by omega) (by omega), toInt32_of_range (by omega) (by omega)]
  unfold toSizeT
  omega

/-- Where a complete array has been read to. -/
theorem complete_array {i : Nat} (small : i + 2 < 2 ^ 31) (star : b.head? = some (charByte '*'))
    (found : crlfIndex b = some i) {out args : List Bytes} {rest : Bytes}
    (complete : parse b out = (.complete, rest, args)) :
    ∃ todo pos, (atoi (b.drop 1)).toNat = todo + 1 ∧
      parseArrayLoop b (todo + 1) (i + 2) [] = (.complete, pos, args) ∧ rest = b.drop pos := by
  obtain ⟨-, todo, pos, count, looped, rest_eq⟩ := complete_parse star complete
  rw [start_eq small found] at looped
  exact ⟨todo, pos, count, looped, rest_eq⟩

/-- A first item that is none is an error, whatever the count. -/
theorem parse_error_of_readItem {i : Nat} (small : i + 2 < 2 ^ 31) (star : b.head? = some (charByte '*'))
    (found : crlfIndex b = some i) (error : readItem b (i + 2) = .error .error) (out : List Bytes) :
    (parse b out).1 = .error := by
  rw [parse_array_of_found small star found]
  split
  · rfl
  · rename_i positive
    obtain ⟨todo, count⟩ : ∃ todo, (atoi (b.drop 1)).toNat = todo + 1 :=
      ⟨(atoi (b.drop 1)).toNat - 1, by omega⟩
    rw [count, parseArrayLoop_succ, error]

/-- The loop stays inside the buffer. -/
theorem complete_le (small : b.length < 2 ^ 31) (inside : pos ≤ b.length)
    (complete : parseArrayLoop b todo pos args = (.complete, next, args')) : next ≤ b.length := by
  induction todo generalizing pos args with
  | zero =>
    cases complete
    exact inside
  | succ todo ih =>
    obtain ⟨arg, mid, read, rest⟩ := complete_succ complete
    obtain ⟨_, -, -, -, -, -, bound⟩ := (reads_of_readItem read).layout small
    exact ih bound rest

theorem stable_complete {i : Nat} {out : List Bytes} (small : b.length < 2 ^ 31)
    (star : b.head? = some (charByte '*')) (found : crlfIndex b = some i) (closed : Closed b out)
    {rest : Bytes} (complete : parse b out = (.complete, rest, args)) (x : Bytes) :
    parse (b ++ x) out = (.complete, rest ++ x, args) := by
  have inside := crlfIndex_le found
  have star' : (b ++ x).head? = some (charByte '*') := by
    rw [List.head?_append, star]
    rfl
  obtain ⟨settled, nonneg⟩ := closed star (by rw [complete]; simp)
  have nonneg := nonneg (by rw [complete])
  obtain ⟨todo, pos, count, looped, rfl⟩ := complete_array (by omega) star found complete
  rw [start_eq (by omega) found, count] at settled nonneg
  have again := parseArrayLoop_complete_append small looped settled nonneg x
  obtain ⟨arg, mid, read, -⟩ := complete_succ again
  have count' : atoi ((b ++ x).drop 1) = atoi (b.drop 1) := by
    rcases count_append small found x with same | error
    · exact same
    · rw [error] at read
      cases read
  have bound := complete_le small inside looped
  rw [parse_array_of_found (by omega) star' (crlfIndex_append found x), count', if_neg (by omega), count,
    again]
  simp only [drop_append bound]

theorem stable_error {i : Nat} {out : List Bytes} (small : b.length < 2 ^ 31)
    (star : b.head? = some (charByte '*')) (found : crlfIndex b = some i) (closed : Closed b out)
    (error : (parse b out).1 = .error) (x : Bytes) :
    (parse (b ++ x) out).1 = .error := by
  have inside := crlfIndex_le found
  have star' : (b ++ x).head? = some (charByte '*') := by
    rw [List.head?_append, star]
    rfl
  obtain ⟨settled, -⟩ := closed star (by rw [error]; simp)
  have found' := crlfIndex_append found x
  rcases count_append small found x with count | first
  · rw [parse_array_of_found (by omega) star found] at error
    rw [parse_array_of_found (by omega) star' found', count]
    split at error
    · rename_i none
      rw [if_pos none]
    · rename_i positive
      rw [if_neg positive]
      rw [start_eq (by omega) found] at settled
      have loopError : (parseArrayLoop b (atoi (b.drop 1)).toNat (i + 2) []).1 = .error := by
        rcases looped : parseArrayLoop b (atoi (b.drop 1)).toNat (i + 2) [] with ⟨res, pos, args⟩
        rw [looped] at error
        cases res with
        | error => rfl
        | complete => cases error
        | incomplete => cases error
      have again := parseArrayLoop_error_append small loopError settled x []
      rcases looped : parseArrayLoop (b ++ x) (atoi (b.drop 1)).toNat (i + 2) [] with ⟨res, pos, args⟩
      rw [looped] at again
      cases again
      rfl
  · exact parse_error_of_readItem (by omega) star' found' first out

/-- Buffers with settled fields are stable, and the others that are not errors are not. -/
theorem stable_iff (small : b.length < 2 ^ 31) (out : List Bytes) :
    (Closed b out → Stable b out) ∧ ((parse b out).1 ≠ .error → Stable b out → Closed b out) := by
  constructor
  · intro closed
    by_cases star : b.head? = some (charByte '*')
    · cases found : crlfIndex b with
      | none =>
        have waits := parse_array_of_not_found star found out
        constructor
        · intro rest args done
          rw [waits] at done
          cases done
        · intro error
          rw [waits] at error
          cases error
      | some i =>
        exact ⟨fun rest args done => stable_complete small star found closed done,
          stable_error small star found closed⟩
    · exact stable_inline small star out
  · intro noError stable star arrived
    rcases parsed : parse b out with ⟨res, rest, args⟩
    rw [parsed] at noError arrived
    cases res with
    | incomplete => exact absurd rfl arrived
    | error => exact absurd rfl noError
    | complete =>
      have complete := stable.complete rest args parsed
      cases found : crlfIndex b with
      | none =>
        rw [parse_array_of_not_found star found] at parsed
        cases parsed
      | some i =>
        have inside := crlfIndex_le found
        obtain ⟨todo, pos, count, looped, -⟩ := complete_array (by omega) star found parsed
        rw [start_eq (by omega) found, count]
        have later : ∀ x, ∃ stop, parseArrayLoop (b ++ x) (todo + 1) (i + 2) [] =
            (.complete, stop, args) := by
          intro x
          have star' : (b ++ x).head? = some (charByte '*') := by
            rw [List.head?_append, star]
            rfl
          obtain ⟨todo', pos', count', looped', -⟩ :=
            complete_array (by omega) star' (crlfIndex_append found x) (complete x)
          obtain ⟨arg, mid, read, -⟩ := complete_succ looped'
          have same : atoi ((b ++ x).drop 1) = atoi (b.drop 1) := by
            rcases count_append small found x with same | error
            · exact same
            · rw [error] at read
              cases read
          rw [same, count] at count'
          cases count'
          exact ⟨pos', looped'⟩
        obtain ⟨settled, nonneg⟩ := settled_of_complete small later
        exact ⟨settled, fun _ => nonneg⟩

theorem stable_iff_ping : Stable (str "*1\r\n$4\r\nPING\r\n") [] := by
  refine (stable_iff (by decide) []).1 fun _ _ => ?_
  have start : toSizeT (toInt32 (findCrlf (str "*1\r\n$4\r\nPING\r\n") 0 + 2)) = 4 := by decide
  have count : (atoi ((str "*1\r\n$4\r\nPING\r\n").drop 1)).toNat = 1 := by decide
  have length : atoi ((str "*1\r\n$4\r\nPING\r\n").drop (4 + 1)) = 4 := by decide
  rw [start, count]
  refine ⟨fun arg next _ => ⟨?_, trivial⟩, fun _ arg next _ => ⟨?_, trivial⟩⟩
  · -- the letters behind the length end it whatever follows
    exact atoi_append_of_mem (b := charByte 'P') (by decide) (by decide)
  · rw [length]
    norm_num

/-- A negative length takes in what happens to have arrived, and an empty length field reads on
into what arrives later. -/
theorem unstable_parses :
    parse (str "*1\r\n$-2\r\n") [] = (.complete, [], [[]]) ∧
      parse (str "*1\r\n$-2\r\n" ++ str "A") [] = (.complete, str "A", [str "A"]) ∧
      ¬ Stable (str "*1\r\n$-2\r\n") [] ∧
      (parse (str "*2\r\n$\r\n   ") []).1 = .error ∧
      (parse (str "*2\r\n$\r\n   " ++ str "999") []).1 = .incomplete := by
  have short : parse (str "*1\r\n$-2\r\n") [] = (.complete, [], [[]]) := by decide
  have long : parse (str "*1\r\n$-2\r\n" ++ str "A") [] = (.complete, str "A", [str "A"]) := by
    decide
  refine ⟨short, long, ?_, by decide, by decide⟩
  intro stable
  have same := stable.complete [] [[]] short (str "A")
  rw [long] at same
  cases same

end FastGraph.RespParser
