import FastGraph.Misc.Bytes

/-!
# Decimal numerals

Printing of integers as `std::to_string` prints them and the integer readers of the C and
C++ libraries (`strtol`, `atoi`, `std::stoi`, `std::stoll`): all of them skip white space,
take an optional sign and read the longest run of digits. A printed numeral reads back.
-/

namespace FastGraph

/-- `std::to_string` of an unsigned number. -/
def decimal (n : Nat) : Bytes := (Nat.toDigits 10 n).map charByte

/-- `std::to_string` of a signed number. -/
def decimalInt (i : Int) : Bytes :=
  if i < 0 then charByte '-' :: decimal i.natAbs else decimal i.natAbs

/-- `isdigit`. -/
def isDigit (b : UInt8) : Bool := 48 ≤ b.toNat && b.toNat ≤ 57

/-- `isspace` in the C locale. -/
def isSpace (b : UInt8) : Bool := b.toNat == 32 || (9 ≤ b.toNat && b.toNat ≤ 13)

/-- The number a run of digits denotes. -/
def digitsValue (ds : Bytes) : Nat := ds.foldl (fun acc b => 10 * acc + (b.toNat - 48)) 0

/-- The optional sign of a numeral: whether it is negative, and what follows it. -/
def scanSign : Bytes → Bool × Bytes
  | [] => (false, [])
  | b :: rest =>
    if b = charByte '-' then (true, rest)
    else if b = charByte '+' then (false, rest)
    else (false, b :: rest)

/-- The integer at the head of a string, of any size; `none` where there is no digit. -/
def scanInt (s : Bytes) : Option Int :=
  let signed := scanSign (s.dropWhile isSpace)
  let ds := signed.2.takeWhile isDigit
  if ds = [] then none
  else some (if signed.1 then -(digitsValue ds : Int) else digitsValue ds)

/-- `strtol`: zero without a digit, saturating at the ends of `long`. -/
def strtol (s : Bytes) : Int := max (-2 ^ 63) (min (2 ^ 63 - 1) ((scanInt s).getD 0))

/-- `std::atoi`, the `int` of `strtol`. -/
def atoi (s : Bytes) : Int := toInt32 (strtol s)

/-- The exceptions of `std::stoi` and its kin. -/
inductive NumError where
  | invalidArgument
  | outOfRange
  deriving DecidableEq, Repr

/-- An integer reader that throws outside `w` bits. -/
def stoInt (w : Nat) (s : Bytes) : Except NumError Int :=
  match scanInt s with
  | none => .error .invalidArgument
  | some i =>
    if -2 ^ (w - 1) ≤ i ∧ i < 2 ^ (w - 1) then .ok i else .error .outOfRange

/-- `std::stoi`. -/
def stoi (s : Bytes) : Except NumError Int := stoInt 32 s

/-- `std::stoll`. -/
def stoll (s : Bytes) : Except NumError Int := stoInt 64 s

theorem toNat_charByte {c : Char} (small : c.toNat < 256) : (charByte c).toNat = c.toNat := by
  unfold charByte
  rw [UInt8.toNat_ofNat']
  exact Nat.mod_eq_of_lt small

theorem toNat_of_isDigit {c : Char} (digit : c.isDigit = true) : 48 ≤ c.toNat ∧ c.toNat ≤ 57 := by
  simp only [Char.isDigit, Bool.and_eq_true, decide_eq_true_eq, UInt32.le_iff_toNat_le] at digit
  exact digit

theorem isDigit_charByte {c : Char} (digit : c.isDigit = true) : isDigit (charByte c) = true := by
  have range := toNat_of_isDigit digit
  simp only [isDigit, toNat_charByte (c := c) (by omega), Bool.and_eq_true, decide_eq_true_eq]
  exact range

theorem isDigit_decimal {n : Nat} {b : UInt8} (mem : b ∈ decimal n) : isDigit b = true := by
  obtain ⟨c, hc, rfl⟩ := List.mem_map.mp mem
  exact isDigit_charByte (Nat.isDigit_of_mem_toDigits (by decide) (by decide) hc)

theorem decimal_ne_nil (n : Nat) : decimal n ≠ [] := by
  simp [decimal, Nat.toDigits_ne_nil]

private theorem digitsValue_charByte (cs : List Char) (init : Nat)
    (digits : ∀ c ∈ cs, c.isDigit = true) :
    (cs.map charByte).foldl (fun acc b => 10 * acc + (b.toNat - 48)) init =
      Nat.ofDigitChars 10 cs init := by
  induction cs generalizing init with
  | nil => simp
  | cons c cs ih =>
    have range := toNat_of_isDigit (digits c (by simp))
    rw [List.map_cons, List.foldl_cons, Nat.ofDigitChars_cons,
      ih _ (fun c hc => digits c (List.mem_cons_of_mem _ hc)),
      toNat_charByte (c := c) (by omega)]
    rfl

/-- A printed number is the value of its digits. -/
theorem digitsValue_decimal (n : Nat) : digitsValue (decimal n) = n := by
  unfold digitsValue decimal
  rw [digitsValue_charByte _ _
    (fun c hc => Nat.isDigit_of_mem_toDigits (by decide) (by decide) hc)]
  exact Nat.ofDigitChars_ten_toDigits

/-- A run of digits ends where the next byte is no digit. -/
theorem takeWhile_digits {ds rest : Bytes} (digits : ∀ b ∈ ds, isDigit b = true)
    (stop : ∀ b, rest.head? = some b → isDigit b = false) :
    (ds ++ rest).takeWhile isDigit = ds := by
  rw [List.takeWhile_append_of_pos digits]
  cases rest with
  | nil => simp
  | cons b rest => simp [stop b rfl]

theorem scanSign_digit {b : UInt8} {rest : Bytes} (digit : isDigit b = true) :
    scanSign (b :: rest) = (false, b :: rest) := by
  have minus : b ≠ charByte '-' := by rintro rfl; revert digit; decide
  have plus : b ≠ charByte '+' := by rintro rfl; revert digit; decide
  simp [scanSign, minus, plus]

theorem isSpace_digit {b : UInt8} (digit : isDigit b = true) : isSpace b = false := by
  simp only [isDigit, Bool.and_eq_true, decide_eq_true_eq] at digit
  simp only [isSpace, Bool.or_eq_false_iff, Bool.and_eq_false_iff, decide_eq_false_iff_not,
    beq_eq_false_iff_ne, ne_eq]
  omega

/-- A run of digits reads as its value, whatever follows it. -/
theorem scanInt_digits {ds rest : Bytes} (nonempty : ds ≠ []) (digits : ∀ b ∈ ds, isDigit b = true)
    (stop : ∀ b, rest.head? = some b → isDigit b = false) :
    scanInt (ds ++ rest) = some (digitsValue ds : Int) := by
  have run := takeWhile_digits digits stop
  cases ds with
  | nil => exact absurd rfl nonempty
  | cons d ds =>
    have digit := digits d (by simp)
    unfold scanInt
    rw [List.cons_append, List.dropWhile_cons_of_neg (by simp [isSpace_digit digit]),
      scanSign_digit digit]
    rw [List.cons_append] at run
    simp [run]

/-- A byte that is part of no numeral: neither white space nor a sign nor a digit. -/
def endsNumeral (b : UInt8) : Bool :=
  !isSpace b && !isDigit b && b != charByte '-' && b != charByte '+'

/-- Nothing is read behind a byte that is part of no numeral. -/
theorem scanInt_append_end {b : UInt8} (ends : endsNumeral b = true) (s rest : Bytes) :
    scanInt (s ++ b :: rest) = scanInt s := by
  simp only [endsNumeral, Bool.and_eq_true, Bool.not_eq_true', bne_iff_ne, ne_eq] at ends
  obtain ⟨⟨⟨space, digit⟩, minus⟩, plus⟩ := ends
  have spaces : (s ++ b :: rest).dropWhile isSpace = s.dropWhile isSpace ++ b :: rest := by
    induction s with
    | nil => simp [space]
    | cons c s ih =>
      by_cases blank : isSpace c = true
      · simp only [List.cons_append, List.dropWhile_cons_of_pos blank, ih]
      · simp only [List.cons_append, List.dropWhile_cons_of_neg blank]
  have sign (t : Bytes) : scanSign (t ++ b :: rest) = ((scanSign t).1, (scanSign t).2 ++ b :: rest) := by
    cases t with
    | nil => simp [scanSign, minus, plus]
    | cons c t =>
      simp only [List.cons_append, scanSign]
      split
      · rfl
      · split <;> rfl
  have run (t : Bytes) : (t ++ b :: rest).takeWhile isDigit = t.takeWhile isDigit := by
    induction t with
    | nil => simp [digit]
    | cons c t ih =>
      by_cases isD : isDigit c = true
      · simp only [List.cons_append, List.takeWhile_cons_of_pos isD, ih]
      · simp only [List.cons_append, List.takeWhile_cons_of_neg isD]
  unfold scanInt
  simp only [spaces, sign, run]

theorem atoi_append_end {b : UInt8} (ends : endsNumeral b = true) (s rest : Bytes) :
    atoi (s ++ b :: rest) = atoi s := by
  unfold atoi strtol
  rw [scanInt_append_end ends]

theorem atoi_append_of_mem {b : UInt8} {s : Bytes} (ends : endsNumeral b = true) (mem : b ∈ s)
    (rest : Bytes) : atoi (s ++ rest) = atoi s := by
  obtain ⟨u, v, rfl⟩ := List.append_of_mem mem
  rw [List.append_assoc, List.cons_append, atoi_append_end ends, atoi_append_end ends]

theorem atoi_range (s : Bytes) : -2 ^ 31 ≤ atoi s ∧ atoi s < 2 ^ 31 := toInt32_range _

/-- `atoi` on a run of digits. -/
theorem atoi_digits {ds rest : Bytes} (nonempty : ds ≠ []) (digits : ∀ b ∈ ds, isDigit b = true)
    (stop : ∀ b, rest.head? = some b → isDigit b = false) :
    atoi (ds ++ rest) = toInt32 (min (2 ^ 63 - 1) (digitsValue ds)) := by
  unfold atoi strtol
  rw [scanInt_digits nonempty digits stop, Option.getD_some]
  congr 1
  omega

theorem atoi_digits_of_lt {ds rest : Bytes} (nonempty : ds ≠ [])
    (digits : ∀ b ∈ ds, isDigit b = true) (small : digitsValue ds < 2 ^ 31)
    (stop : ∀ b, rest.head? = some b → isDigit b = false) : atoi (ds ++ rest) = digitsValue ds := by
  rw [atoi_digits nonempty digits stop, min_eq_right (by omega)]
  exact toInt32_of_range (by omega) (by omega)

/-- A printed integer reads back. -/
theorem scanInt_decimalInt (i : Int) : scanInt (decimalInt i) = some i := by
  have plain (n : Nat) : scanInt (decimal n) = some (n : Int) := by
    have read : scanInt (decimal n ++ []) = some ↑(digitsValue (decimal n)) :=
      scanInt_digits (decimal_ne_nil n) (fun b mem => isDigit_decimal mem) (by simp)
    rwa [List.append_nil, digitsValue_decimal] at read
  unfold decimalInt
  split
  · have digits : (decimal i.natAbs ++ []).takeWhile isDigit = decimal i.natAbs :=
      takeWhile_digits (fun b mem => isDigit_decimal mem) (by simp)
    rw [List.append_nil] at digits
    have minus : isSpace (charByte '-') = false := by decide
    unfold scanInt
    rw [List.dropWhile_cons_of_neg (by simp [minus])]
    simp only [scanSign, if_pos, digits, decimal_ne_nil, if_false, digitsValue_decimal,
      Option.some.injEq]
    omega
  · rw [plain, Option.some.injEq]
    omega

theorem decimalInt_injective : Function.Injective decimalInt := by
  intro i j same
  have read := congrArg scanInt same
  rwa [scanInt_decimalInt, scanInt_decimalInt, Option.some.injEq] at read

theorem stoll_range {s : Bytes} {n : Int} (read : stoll s = .ok n) : -2 ^ 63 ≤ n ∧ n < 2 ^ 63 := by
  unfold stoll stoInt at read
  split at read
  · cases read
  · split at read
    · rename_i range
      cases read
      exact range
    · cases read

/-- `std::stoi` reads a printed `int`. -/
theorem stoi_decimalInt {i : Int} (isInt : IsInt i) : stoi (decimalInt i) = .ok i := by
  unfold stoi stoInt
  rw [scanInt_decimalInt]
  exact if_pos isInt

theorem isInt_of_stoi {s : Bytes} {i : Int} (read : stoi s = .ok i) : IsInt i := by
  unfold stoi stoInt at read
  split at read
  · cases read
  · split at read
    · rename_i bounds
      cases read
      exact bounds
    · cases read

/-- `atoi` reads a printed count or length below `2^31`. -/
theorem atoi_decimal {n : Nat} {rest : Bytes} (small : n < 2 ^ 31)
    (stop : ∀ b, rest.head? = some b → isDigit b = false) : atoi (decimal n ++ rest) = n := by
  rw [atoi_digits_of_lt (decimal_ne_nil n) (fun b mem => isDigit_decimal mem)
    (by rwa [digitsValue_decimal]) stop, digitsValue_decimal]

end FastGraph
