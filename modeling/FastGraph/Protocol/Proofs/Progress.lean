import FastGraph.Protocol.Proofs.Stability

/-!
# How an array is read

The iterations of the loop of `parse_array` with the positions before and after them and the bytes
that they deliver. A negative length delivers everything that follows it, but moves the position
less far than to the end of its line, or back.
-/

namespace FastGraph.RespParser

variable {b : Bytes} {pos pos' i i' todo next stop : Nat} {len len' : Int} {args args' : List Bytes}
  {arg : Bytes}

/-- The byte `k` of the buffer is in the argument. -/
def Iteration.Delivers (it : Iteration) (k : Nat) : Prop :=
  it.body ≤ k ∧ k < it.body + it.arg.length

/-- No byte is in both arguments. -/
def Iteration.Apart (it it' : Iteration) : Prop := ∀ k, it.Delivers k → ¬ it'.Delivers k

/-- Where the position is after the iterations. -/
def stopOf (its : List Iteration) (pos : Nat) : Nat := (its.map Iteration.next).getLastD pos

theorem stopOf_cons (it : Iteration) (its : List Iteration) (pos : Nat) :
    stopOf (it :: its) pos = stopOf its it.next := List.getLastD_cons ..

/-- The loop makes these iterations, and if it completes then as many as there are items. -/
theorem parseArrayLoop_iterations {res : ParseResult}
    (run : parseArrayLoop b todo pos args = (res, stop, args')) :
    args' = args ++ (iterations b todo pos).map Iteration.arg ∧
      stop = stopOf (iterations b todo pos) pos ∧
      (res = .complete ↔ (iterations b todo pos).length = todo) := by
  induction todo generalizing pos args with
  | zero =>
    cases run
    exact ⟨(List.append_nil _).symm, rfl, iff_of_true rfl rfl⟩
  | succ todo ih =>
    rw [parseArrayLoop_succ] at run
    rw [iterations]
    cases read : readItem b pos with
    | error res' =>
      rw [read] at run
      cases run
      refine ⟨(List.append_nil _).symm, rfl, iff_of_false ?_ (Nat.zero_ne_add_one todo)⟩
      rintro rfl
      exact readItem_ne_complete read
    | ok item =>
      obtain ⟨arg, next⟩ := item
      rw [read] at run
      obtain ⟨delivered, stopped, complete⟩ := ih run
      refine ⟨?_, ?_, complete.trans (Nat.add_left_inj).symm⟩
      · rw [delivered, List.append_assoc]
        rfl
      · rw [stopped, stopOf_cons]

/-! ### Items -/

/-- At `pos` stands an item with a line of `i` bytes and the length `len`, for which the buffer
has room. -/
structure Item (b : Bytes) (pos i : Nat) (len : Int) : Prop where
  marker : b[pos]? = some (charByte '$')
  line : crlfIndex (b.drop pos) = some i
  length : atoi (b.drop (pos + 1)) = len
  room : 0 ≤ (pos + i + 2 : Nat) + (len + 2) ∧ (pos + i + 2 : Nat) + (len + 2) ≤ (b.length : Int)

/-- The position behind an item. -/
def behind (pos i : Nat) (len : Int) : Nat := ((pos + i + 2 : Nat) + (len + 2)).toNat

/-- What an item delivers whose line ends at `body`. -/
def argument (b : Bytes) (body : Nat) (len : Int) : Bytes :=
  if 0 ≤ len then (b.drop body).take len.toNat else b.drop body

theorem Item.unique (item : Item b pos i len) (item' : Item b pos i' len') : i' = i ∧ len' = len :=
  ⟨Option.some.inj (item'.line.symm.trans item.line), item'.length.symm.trans item.length⟩

/-- What is said of every item at the position is said of this one. -/
theorem Item.forall_iff (item : Item b pos i len) {P : Nat → Int → Prop} :
    (∀ i' len', Item b pos i' len' → P i' len') ↔ P i len := by
  constructor
  · intro each
    exact each i len item
  · intro this i' len' item'
    obtain ⟨rfl, rfl⟩ := item.unique item'
    exact this

theorem Item.inside (item : Item b pos i len) : pos + i + 2 ≤ b.length := by
  have inside := crlfIndex_le item.line
  rw [List.length_drop] at inside
  omega

theorem Item.behind_eq (item : Item b pos i len) :
    (behind pos i len : Int) = (pos + i + 2 : Nat) + (len + 2) := Int.toNat_of_nonneg item.room.1

theorem Item.readItem_eq (small : b.length < 2 ^ 31) (item : Item b pos i len) :
    toSizeT (toInt32 (findCrlf b pos + 2)) = pos + i + 2 ∧
      readItem b pos = .ok (argument b (pos + i + 2) len, behind pos i len) := by
  obtain ⟨at_i, inside⟩ := findCrlf_of_found small item.line
  have body : toSizeT (toInt32 (findCrlf b pos + 2)) = pos + i + 2 := by
    rw [at_i, toInt32_of_range (by omega) (by omega)]
    unfold toSizeT
    omega
  obtain ⟨low, high⟩ := atoi_range (b.drop (pos + 1))
  obtain ⟨after, room⟩ := item.room
  rw [item.length] at low high
  have arrived : ¬ findCrlf b pos < 0 := by omega
  have fits : ¬ b.length < toSizeT (toSizeT (toInt32 (findCrlf b pos + 2)) + toSizeT len + 2) := by
    rw [body]
    unfold toSizeT
    omega
  have next : toSizeT ((pos + i + 2 : Nat) + toInt32 (len + 2)) = behind pos i len := by
    rw [toInt32_of_range (by omega) (by omega), behind, toSizeT_of_nonneg after (by omega)]
  have taken : substr b (pos + i + 2) (toSizeT len) = argument b (pos + i + 2) len := by
    rw [argument, substr]
    split
    · rename_i nonneg
      rw [toSizeT_of_nonneg nonneg (by omega)]
    · rw [List.take_of_length_le]
      rw [List.length_drop]
      unfold toSizeT
      omega
  refine ⟨body, ?_⟩
  rw [readItem, if_neg (by omega), if_neg (not_not.mpr item.marker), if_neg arrived, item.length,
    if_neg fits, body, next, taken]

theorem exists_item (small : b.length < 2 ^ 31) (read : readItem b pos = .ok (arg, next)) :
    ∃ i len, Item b pos i len := by
  have reads := reads_of_readItem read
  obtain ⟨i, found, -, -, after, next_eq, bound⟩ := reads.layout small
  exact ⟨i, _, reads.marker, found, rfl, after, by omega⟩

theorem iterations_of_item (small : b.length < 2 ^ 31) (item : Item b pos i len) (todo : Nat) :
    iterations b (todo + 1) pos =
      ⟨pos, pos + i + 2, argument b (pos + i + 2) len, behind pos i len⟩ ::
        iterations b todo (behind pos i len) := by
  obtain ⟨body, read⟩ := item.readItem_eq small
  rw [iterations, read, body]

theorem iterations_of_none (small : b.length < 2 ^ 31) (none : ¬ ∃ i len, Item b pos i len)
    (todo : Nat) : iterations b (todo + 1) pos = [] := by
  rw [iterations]
  cases read : readItem b pos with
  | error res => rfl
  | ok item => exact absurd (exists_item small read) none

/-! ### What a buffer must be like -/

/-- No length takes the parse back to where the item begins. -/
def Forwards (b : Bytes) : Nat → Nat → Prop
  | 0, _ => True
  | todo + 1, pos => ∀ i len, Item b pos i len →
      -len < i + 4 ∧ Forwards b todo (behind pos i len)

/-- All the items are there. -/
def AllThere (b : Bytes) : Nat → Nat → Prop
  | 0, _ => True
  | todo + 1, pos => ∃ i len, Item b pos i len ∧ AllThere b todo (behind pos i len)

/-- The items are empty and the buffer ends with them. -/
def EmptyToEnd (b : Bytes) : Nat → Nat → Prop
  | 0, pos => pos = b.length
  | todo + 1, pos => ∀ i len, Item b pos i len →
      (len = 0 ∨ pos + i + 2 = b.length) ∧ EmptyToEnd b todo (behind pos i len)

/-- Behind the first item with a negative length the buffer ends, or empty items follow and the
buffer ends with them. -/
def NegativeAtEnd (b : Bytes) : Nat → Nat → Prop
  | 0, _ => True
  | todo + 1, pos => ∀ i len, Item b pos i len →
      (0 ≤ len → NegativeAtEnd b todo (behind pos i len)) ∧
        (len < 0 → pos + i + 2 = b.length ∨ EmptyToEnd b todo (behind pos i len))

/-- No item takes the parse back, and if all are there, none takes bytes from another or from what
is left. -/
def Tame (b : Bytes) : Prop :=
  ∀ i, crlfIndex b = some i → Forwards b (atoi (b.drop 1)).toNat (i + 2) ∧
    (AllThere b (atoi (b.drop 1)).toNat (i + 2) → NegativeAtEnd b (atoi (b.drop 1)).toNat (i + 2))

/-! ### The positions -/

theorem forwards_iff (small : b.length < 2 ^ 31) :
    Forwards b todo pos ↔ ∀ it ∈ iterations b todo pos, it.pos < it.next ∧ it.next ≤ b.length := by
  induction todo generalizing pos with
  | zero => exact iff_of_true trivial nofun
  | succ todo ih =>
    by_cases there : ∃ i len, Item b pos i len
    · obtain ⟨i, len, item⟩ := there
      rw [Forwards, item.forall_iff, iterations_of_item small item, List.forall_mem_cons, ← ih]
      refine and_congr_left' ?_
      obtain ⟨after, room⟩ := item.room
      have next := item.behind_eq
      dsimp only
      omega
    · rw [iterations_of_none small there]
      exact iff_of_true (fun i len item => absurd ⟨i, len, item⟩ there) nofun

theorem allThere_iff (small : b.length < 2 ^ 31) :
    AllThere b todo pos ↔ (iterations b todo pos).length = todo := by
  induction todo generalizing pos with
  | zero => exact iff_of_true trivial rfl
  | succ todo ih =>
    by_cases there : ∃ i len, Item b pos i len
    · obtain ⟨i, len, item⟩ := there
      rw [iterations_of_item small item, List.length_cons, Nat.add_left_inj, ← ih]
      constructor
      · intro ⟨i', len', item', rest⟩
        obtain ⟨rfl, rfl⟩ := item.unique item'
        exact rest
      · intro rest
        exact ⟨i, len, item, rest⟩
    · rw [iterations_of_none small there]
      refine iff_of_false ?_ (Nat.zero_ne_add_one todo)
      intro ⟨i, len, item, _⟩
      exact there ⟨i, len, item⟩

/-- What is known of an iteration of a loop that begins at `pos`. -/
structure Iteration.At (b : Bytes) (pos : Nat) (it : Iteration) : Prop where
  item : ∃ i len, Item b it.pos i len ∧ it.body = it.pos + i + 2 ∧ it.arg = argument b it.body len
  later : pos ≤ it.pos

theorem iterations_at (small : b.length < 2 ^ 31) (forwards : Forwards b todo pos) :
    ∀ it ∈ iterations b todo pos, it.At b pos := by
  induction todo generalizing pos with
  | zero => exact nofun
  | succ todo ih =>
    by_cases there : ∃ i len, Item b pos i len
    · obtain ⟨i, len, item⟩ := there
      obtain ⟨less, rest⟩ := forwards i len item
      rw [iterations_of_item small item, List.forall_mem_cons]
      refine ⟨⟨⟨i, len, item, rfl, rfl⟩, le_rfl⟩, fun it mem => ?_⟩
      have known := ih rest it mem
      refine ⟨known.item, le_trans ?_ known.later⟩
      unfold behind
      omega
    · rw [iterations_of_none small there]
      exact nofun

theorem stopOf_le (small : b.length < 2 ^ 31) (inside : pos ≤ b.length)
    (forwards : Forwards b todo pos) :
    pos ≤ stopOf (iterations b todo pos) pos ∧ stopOf (iterations b todo pos) pos ≤ b.length ∧
      (iterations b todo pos).length ≤ stopOf (iterations b todo pos) pos - pos := by
  induction todo generalizing pos with
  | zero => exact ⟨le_rfl, inside, Nat.zero_le _⟩
  | succ todo ih =>
    by_cases there : ∃ i len, Item b pos i len
    · obtain ⟨i, len, item⟩ := there
      obtain ⟨less, rest⟩ := forwards i len item
      obtain ⟨after, room⟩ := item.room
      have next := item.behind_eq
      obtain ⟨low, high, count⟩ := ih (by omega) rest
      rw [iterations_of_item small item, stopOf_cons, List.length_cons]
      dsimp only
      exact ⟨by omega, high, by omega⟩
    · rw [iterations_of_none small there]
      exact ⟨le_rfl, inside, Nat.zero_le _⟩

/-! ### The bytes -/

theorem crlfIndex_tail {a : UInt8} {l : Bytes} (found : crlfIndex (a :: l) = some (i + 1)) :
    crlfIndex l = some i := by
  cases l with
  | nil => simp [crlfIndex] at found
  | cons c l =>
    rw [crlfIndex] at found
    split at found
    · cases found
    · obtain ⟨j, later, same⟩ := Option.map_eq_some_iff.mp found
      rw [later, Nat.add_right_cancel same]

/-- The line of a later item ends no earlier. -/
theorem Item.body_le (item : Item b pos i len) (item' : Item b pos' i' len') (later : pos ≤ pos') :
    pos + i ≤ pos' + i' := by
  by_contra before
  -- the line end of the first item is still the first one at the later position
  have still (k : Nat) (short : k ≤ i) : crlfIndex (b.drop (pos + k)) = some (i - k) := by
    induction k with
    | zero => exact item.line
    | succ k ih =>
      have found := ih (by omega)
      have inside : pos + k < b.length := by
        have := item.inside
        omega
      rw [List.drop_eq_getElem_cons inside, show i - k = i - (k + 1) + 1 by omega] at found
      exact crlfIndex_tail found
  have found := still (pos' - pos) (by omega)
  rw [show pos + (pos' - pos) = pos' by omega, item'.line] at found
  have := Option.some.inj found
  omega

theorem Item.length_argument (item : Item b pos i len) :
    (0 ≤ len → ((argument b (pos + i + 2) len).length : Int) = len) ∧
      (len < 0 → pos + i + 2 + (argument b (pos + i + 2) len).length = b.length) := by
  have inside := item.inside
  obtain ⟨after, room⟩ := item.room
  unfold argument
  constructor
  · intro nonneg
    rw [if_pos nonneg, List.length_take, List.length_drop]
    omega
  · intro negative
    rw [if_neg (by omega), List.length_drop]
    omega

/-- The arguments are apart from each other and from what is left behind `stop`. -/
def Parted (its : List Iteration) (stop : Nat) : Prop :=
  its.Pairwise Iteration.Apart ∧ ∀ it ∈ its, ∀ k, it.Delivers k → k < stop

theorem parted_of_empty {its : List Iteration} (empty : ∀ it ∈ its, it.arg = []) (stop : Nat) :
    Parted its stop := by
  have nothing (it : Iteration) (mem : it ∈ its) (k : Nat) : ¬ it.Delivers k := by
    intro ⟨low, high⟩
    rw [empty it mem, List.length_nil] at high
    omega
  refine ⟨?_, fun it mem k delivers => absurd delivers (nothing it mem k)⟩
  exact List.pairwise_iff_forall_sublist.mpr fun sublist k _ =>
    nothing _ (sublist.subset (List.mem_cons_of_mem _ List.mem_cons_self)) k

theorem Item.argument_eq_nil_iff (item : Item b pos i len) :
    argument b (pos + i + 2) len = [] ↔ len = 0 ∨ pos + i + 2 = b.length := by
  obtain ⟨whenNonneg, whenNegative⟩ := item.length_argument
  obtain ⟨-, room⟩ := item.room
  rw [← List.length_eq_zero_iff]
  rcases le_or_gt 0 len with nonneg | negative
  · have length := whenNonneg nonneg
    omega
  · have length := whenNegative negative
    omega

theorem emptyToEnd_iff (small : b.length < 2 ^ 31) (there : AllThere b todo pos) :
    EmptyToEnd b todo pos ↔ (∀ it ∈ iterations b todo pos, it.arg = []) ∧
      stopOf (iterations b todo pos) pos = b.length := by
  induction todo generalizing pos with
  | zero => exact (and_iff_right nofun).symm
  | succ todo ih =>
    obtain ⟨i, len, item, rest⟩ := there
    rw [EmptyToEnd, item.forall_iff, iterations_of_item small item, List.forall_mem_cons, stopOf_cons,
      and_assoc, ← ih rest, ← item.argument_eq_nil_iff]

theorem parted_cons {it : Iteration} {its : List Iteration} :
    Parted (it :: its) stop ↔ ((∀ it' ∈ its, it.Apart it') ∧ ∀ k, it.Delivers k → k < stop) ∧
      Parted its stop := by
  rw [Parted, List.pairwise_cons, List.forall_mem_cons, Parted]
  tauto

/-- Where an iteration delivers, and that it does not reach beyond the buffer. -/
theorem Iteration.At.bounds {it : Iteration} (known : it.At b pos) :
    it.pos + 2 ≤ it.body ∧ it.body + it.arg.length ≤ b.length := by
  obtain ⟨i, len, item, body, delivered⟩ := known.item
  rw [body] at delivered
  obtain ⟨whenNonneg, whenNegative⟩ := item.length_argument
  obtain ⟨-, room⟩ := item.room
  rw [body, delivered]
  refine ⟨by omega, ?_⟩
  rcases le_or_gt 0 len with nonneg | negative
  · have length := whenNonneg nonneg
    omega
  · exact (whenNegative negative).le

/-- An argument that ends before the next position is apart from all that follows. -/
theorem Item.parted_cons_of_nonneg (item : Item b pos i len) (nonneg : 0 ≤ len)
    {its : List Iteration} (known : ∀ it ∈ its, it.At b (behind pos i len))
    (low : behind pos i len ≤ stop) :
    Parted (⟨pos, pos + i + 2, argument b (pos + i + 2) len, behind pos i len⟩ :: its) stop ↔
      Parted its stop := by
  have length := item.length_argument.1 nonneg
  have next := item.behind_eq
  rw [parted_cons]
  refine and_iff_right ⟨?_, ?_⟩
  · intro it mem k ⟨_, below⟩ ⟨above, _⟩
    have begins := (known it mem).later
    have bounds := (known it mem).bounds
    dsimp only at below
    omega
  · intro k ⟨_, below⟩
    dsimp only at below
    omega

/-- An argument that is all that follows its line is apart from the rest only if there is none. -/
theorem Item.parted_cons_of_negative (item : Item b pos i len) (negative : len < 0)
    (less : -len < i + 4) {its : List Iteration} (known : ∀ it ∈ its, it.At b (behind pos i len))
    (high : stop ≤ b.length) :
    Parted (⟨pos, pos + i + 2, argument b (pos + i + 2) len, behind pos i len⟩ :: its) stop ↔
      pos + i + 2 = b.length ∨ (∀ it ∈ its, it.arg = []) ∧ stop = b.length := by
  have length := item.length_argument.2 negative
  have next := item.behind_eq
  have behindLine (it : Iteration) (mem : it ∈ its) : pos + i + 2 ≤ it.body := by
    obtain ⟨i', len', item', body, -⟩ := (known it mem).item
    have begins := (known it mem).later
    have := item.body_le item' (by omega)
    omega
  generalize argument b (pos + i + 2) len = arg at length
  constructor
  · intro parted
    obtain ⟨⟨apart, consumed⟩, -⟩ := parted_cons.mp parted
    rw [or_iff_not_imp_left]
    intro more
    refine ⟨fun it mem => ?_, ?_⟩
    · by_contra some
      have bytes := List.length_pos_iff.mpr some
      have bounds := (known it mem).bounds
      have starts := behindLine it mem
      exact apart it mem it.body ⟨starts, by dsimp only; omega⟩ ⟨le_rfl, by omega⟩
    · have last := consumed (b.length - 1) ⟨by dsimp only; omega, by dsimp only; omega⟩
      omega
  · intro ends
    rcases ends with nothing | ⟨empty, ended⟩
    · have empty (it : Iteration) (mem : it ∈ its) : it.arg = [] := by
        have bounds := (known it mem).bounds
        have starts := behindLine it mem
        exact List.length_eq_zero_iff.mp (by omega)
      have none : arg = [] := List.length_eq_zero_iff.mp (by omega)
      exact parted_of_empty (List.forall_mem_cons.mpr ⟨none, empty⟩) stop
    · refine parted_cons.mpr ⟨⟨fun it mem k _ ⟨above, below⟩ => ?_, fun k ⟨_, below⟩ => ?_⟩,
        parted_of_empty empty stop⟩
      · rw [empty it mem, List.length_nil] at below
        omega
      · dsimp only at below
        omega

/-- The arguments of a complete array are apart from each other and from what is left if and only if
nothing can follow the first negative length. -/
theorem parted_iff (small : b.length < 2 ^ 31) (inside : pos ≤ b.length)
    (forwards : Forwards b todo pos) (there : AllThere b todo pos) :
    Parted (iterations b todo pos) (stopOf (iterations b todo pos) pos) ↔
      NegativeAtEnd b todo pos := by
  induction todo generalizing pos with
  | zero => exact iff_of_true ⟨.nil, nofun⟩ trivial
  | succ todo ih =>
    obtain ⟨i, len, item, rest⟩ := there
    obtain ⟨less, forwards⟩ := forwards i len item
    have room := item.room
    have next := item.behind_eq
    have inside' : behind pos i len ≤ b.length := by omega
    obtain ⟨low, high, -⟩ := stopOf_le small inside' forwards
    have known := iterations_at small forwards
    rw [NegativeAtEnd, item.forall_iff, iterations_of_item small item, stopOf_cons]
    dsimp only
    rcases le_or_gt 0 len with nonneg | negative
    · rw [item.parted_cons_of_nonneg nonneg known low, ih inside' forwards rest]
      simp only [nonneg, not_lt.mpr nonneg, true_imp_iff, false_imp_iff, and_true]
    · rw [item.parted_cons_of_negative negative less known high, ← emptyToEnd_iff small rest]
      simp only [negative, not_le.mpr negative, true_imp_iff, false_imp_iff, true_and]

/-! ### The parse -/

theorem arrayIterations_eq (small : b.length < 2 ^ 31) (found : crlfIndex b = some i) :
    arrayIterations b = iterations b (atoi (b.drop 1)).toNat (i + 2) := by
  have inside := crlfIndex_le found
  have header : findCrlf b 0 = (0 + i : Nat) :=
    (findCrlf_of_found small (by rw [List.drop_zero, found])).1
  rw [arrayIterations, if_neg (by omega), start_eq (by omega) found]

/-- A complete parse returns what its iterations deliver, and what follows the last of them. -/
theorem parse_delivers (star : b.head? = some (charByte '*')) (small : b.length < 2 ^ 31)
    (found : crlfIndex b = some i) (out : List Bytes) :
    ((parse b out).1 = .complete ↔ 0 < atoi (b.drop 1) ∧
        AllThere b (atoi (b.drop 1)).toNat (i + 2)) ∧
      ((parse b out).1 = .complete →
        (parse b out).2 =
          (b.drop (stopOf (arrayIterations b) (i + 2)), (arrayIterations b).map Iteration.arg)) := by
  have inside := crlfIndex_le found
  rw [arrayIterations_eq small found, parse_array_of_found (by omega) star found, allThere_iff small]
  split
  · rename_i none
    exact ⟨iff_of_false nofun fun both => absurd both.1 (not_lt.mpr none), nofun⟩
  · rename_i some
    rcases run : parseArrayLoop b (atoi (b.drop 1)).toNat (i + 2) [] with ⟨res, stop, args⟩
    obtain ⟨delivered, stopped, complete⟩ := parseArrayLoop_iterations run
    rw [and_iff_right (not_le.mp some), ← complete, stopped, delivered]
    cases res with
    | complete => exact ⟨Iff.rfl, fun _ => rfl⟩
    | incomplete => exact ⟨Iff.rfl, nofun⟩
    | error => exact ⟨Iff.rfl, nofun⟩

/-- Every iteration moves on inside the buffer, so that there are no more of them than bytes, and no
byte of a complete parse is delivered twice, or delivered and left. -/
structure Orderly (b : Bytes) (out : List Bytes) : Prop where
  advances : ∀ it ∈ arrayIterations b, it.pos < it.next ∧ it.next ≤ b.length
  count : (arrayIterations b).length < b.length
  apart : (parse b out).1 = .complete → (arrayIterations b).Pairwise Iteration.Apart
  consumed : (parse b out).1 = .complete → ∀ it ∈ arrayIterations b, ∀ k, it.Delivers k →
    k < b.length - (parse b out).2.1.length

/-- The parse of an array is orderly if and only if no length takes it back and no item takes bytes
from what follows. -/
theorem orderly_iff (star : b.head? = some (charByte '*')) (small : b.length < 2 ^ 31)
    (out : List Bytes) : Orderly b out ↔ Tame b := by
  cases found : crlfIndex b with
  | none =>
    have nothing : arrayIterations b = [] := by
      rw [arrayIterations, findCrlf, List.drop_zero, found]
      rfl
    have nonempty : 0 < b.length := by
      rw [List.length_pos_iff]
      rintro rfl
      cases star
    have unread := parse_array_of_not_found star found out
    refine iff_of_true ⟨?_, ?_, ?_, ?_⟩ fun i line => ?_
    · rw [nothing]
      intro it mem
      cases mem
    · rw [nothing]
      exact nonempty
    · rw [unread]
      intro complete
      cases complete
    · rw [unread]
      intro complete
      cases complete
    · rw [found] at line
      cases line
  | some i =>
    have inside := crlfIndex_le found
    have only : Tame b ↔ Forwards b (atoi (b.drop 1)).toNat (i + 2) ∧
        (AllThere b (atoi (b.drop 1)).toNat (i + 2) →
          NegativeAtEnd b (atoi (b.drop 1)).toNat (i + 2)) := by
      rw [Tame, found]
      exact ⟨fun tame => tame i rfl, fun both j same => Option.some.inj same ▸ both⟩
    obtain ⟨complete, delivered⟩ := parse_delivers star small found out
    rw [only]
    rw [arrayIterations_eq small found] at delivered
    have left (forwards : Forwards b (atoi (b.drop 1)).toNat (i + 2))
        (completed : (parse b out).1 = .complete) : b.length - (parse b out).2.1.length =
          stopOf (iterations b (atoi (b.drop 1)).toNat (i + 2)) (i + 2) := by
      obtain ⟨-, bound, -⟩ := stopOf_le small inside forwards
      rw [delivered completed, List.length_drop]
      omega
    constructor
    · intro orderly
      have advances := orderly.advances
      rw [arrayIterations_eq small found] at advances
      have forwards := (forwards_iff small).mpr advances
      refine ⟨forwards, fun there => ?_⟩
      rcases lt_or_ge 0 (atoi (b.drop 1)) with some | none
      · have completed := complete.mpr ⟨some, there⟩
        have apart := orderly.apart completed
        have consumed := orderly.consumed completed
        rw [left forwards completed] at consumed
        rw [arrayIterations_eq small found] at apart consumed
        exact (parted_iff small inside forwards there).mp ⟨apart, consumed⟩
      · rw [Int.toNat_of_nonpos none]
        trivial
    · rintro ⟨forwards, ends⟩
      obtain ⟨-, bound, count⟩ := stopOf_le small inside forwards
      have parted (completed : (parse b out).1 = .complete) :
          Parted (arrayIterations b) (b.length - (parse b out).2.1.length) := by
        have there := (complete.mp completed).2
        rw [left forwards completed, arrayIterations_eq small found]
        exact (parted_iff small inside forwards there).mpr (ends there)
      refine ⟨?_, ?_, fun completed => (parted completed).1, fun completed => (parted completed).2⟩
      · rw [arrayIterations_eq small found]
        exact (forwards_iff small).mp forwards
      · rw [arrayIterations_eq small found]
        omega

theorem orderly_iff_ping : Orderly (str "*1\r\n$4\r\nPING\r\n") [] ↔
    Tame (str "*1\r\n$4\r\nPING\r\n") :=
  orderly_iff (by decide) (by decide) []

/-- The length -7 takes the parse back to the beginning of its item, as often as the header says,
and -2 delivers a byte that is left as well. -/
theorem arrayIterations_back :
    arrayIterations (str "*2\r\n$-7\r\n") = [⟨4, 9, [], 4⟩, ⟨4, 9, [], 4⟩] ∧
      parse (str "*2\r\n$-7\r\n") [] = (.complete, str "$-7\r\n", [[], []]) ∧
      ¬ Orderly (str "*2\r\n$-7\r\n") [] ∧
      parse (str "*1\r\n$-2\r\nA") [] = (.complete, str "A", [str "A"]) := by
  have back : arrayIterations (str "*2\r\n$-7\r\n") = [⟨4, 9, [], 4⟩, ⟨4, 9, [], 4⟩] := by
    decide
  refine ⟨back, by decide, fun orderly => ?_, by decide⟩
  have advances := orderly.advances
  rw [back] at advances
  exact absurd (advances _ List.mem_cons_self).1 (lt_irrefl 4)

end FastGraph.RespParser
