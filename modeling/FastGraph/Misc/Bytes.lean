import Mathlib

/-!
# Byte strings and machine integers

A `std::string` is a list of bytes, ordered as `std::char_traits<char>::compare`
orders it: lexicographically on unsigned bytes. Machine integers are `Int` and `Nat`
with the conversions of the C++ types written out where a value can leave its range.
-/

namespace FastGraph

/-- A `std::string`: any bytes, NUL, CR and LF included. -/
abbrev Bytes := List UInt8

/-- The order of `unsigned char`, through which `std::string` compares. -/
instance linearOrderUInt8 : LinearOrder UInt8 where
  le_refl := UInt8.le_refl
  le_trans := fun _ _ _ => UInt8.le_trans
  le_antisymm := fun _ _ => UInt8.le_antisymm
  le_total := UInt8.le_total
  lt_iff_le_not_ge := by
    intro a b
    simp only [UInt8.lt_iff_toNat_lt, UInt8.le_iff_toNat_le]
    omega
  toDecidableLE := inferInstance

/-- The byte of an ASCII character. -/
def charByte (c : Char) : UInt8 := UInt8.ofNat c.toNat

/-- A string literal of the source, all of which are ASCII. -/
def str (s : String) : Bytes := s.toList.map charByte

/-- Carriage return, `'\r'`. -/
def cr : UInt8 := 13

/-- Line feed, `'\n'`. -/
def lf : UInt8 := 10

/-- The line end of the protocol, `"\r\n"`. -/
def crlf : Bytes := [cr, lf]

/-- A signed value stored in `w` bits, two's complement. -/
def wrapSigned (w : Nat) (i : Int) : Int := i.bmod (2 ^ w)

/-- A conversion to `int`. -/
def toInt32 (i : Int) : Int := wrapSigned 32 i

/-- A value of type `int`. -/
def IsInt (i : Int) : Prop := -2 ^ 31 ≤ i ∧ i < 2 ^ 31

/-- A conversion to `int64_t`. -/
def toInt64 (i : Int) : Int := wrapSigned 64 i

/-- A conversion to `size_t`. -/
def toSizeT (i : Int) : Nat := (i % 2 ^ 64).toNat

theorem toInt32_of_range {i : Int} (low : -2 ^ 31 ≤ i) (high : i < 2 ^ 31) : toInt32 i = i := by
  unfold toInt32 wrapSigned
  apply Int.bmod_eq_of_le <;> norm_num <;> omega

theorem toInt64_of_range {i : Int} (low : -2 ^ 63 ≤ i) (high : i < 2 ^ 63) : toInt64 i = i := by
  unfold toInt64 wrapSigned
  apply Int.bmod_eq_of_le <;> norm_num <;> omega

theorem IsInt.toInt32_eq {i : Int} (fits : IsInt i) : toInt32 i = i :=
  toInt32_of_range fits.1 fits.2

theorem isInt_zero : IsInt 0 := ⟨by norm_num, by norm_num⟩

theorem toInt32_range (i : Int) : IsInt (toInt32 i) := by
  unfold toInt32 wrapSigned
  have low := Int.le_bmod (x := i) (m := 2 ^ 32) (by norm_num)
  have high := Int.bmod_lt (x := i) (m := 2 ^ 32) (by norm_num)
  unfold IsInt
  norm_num at low high ⊢
  omega

/-- A sum wraps as its parts do. -/
theorem toInt32_toInt32_add (i j : Int) : toInt32 (toInt32 i + j) = toInt32 (i + j) :=
  Int.bmod_add_bmod

/-- So does a difference. -/
theorem toInt32_toInt32_sub (i j : Int) : toInt32 (toInt32 i - j) = toInt32 (i - j) :=
  Int.bmod_sub_bmod

theorem toInt32_nonneg {k : Nat} (small : k < 2 ^ 32) (nonneg : 0 ≤ toInt32 k) : k < 2 ^ 31 := by
  unfold toInt32 wrapSigned at nonneg
  rw [Int.bmod_def] at nonneg
  split at nonneg <;> omega

theorem toInt64_range (i : Int) : -2 ^ 63 ≤ toInt64 i ∧ toInt64 i < 2 ^ 63 := by
  unfold toInt64 wrapSigned
  have low := Int.le_bmod (x := i) (m := 2 ^ 64) (by norm_num)
  have high := Int.bmod_lt (x := i) (m := 2 ^ 64) (by norm_num)
  norm_num at low high ⊢
  omega

/-- A sum wraps as its parts do. -/
theorem toInt64_add_toInt64 (i j : Int) : toInt64 (i + toInt64 j) = toInt64 (i + j) :=
  Int.add_bmod_bmod

theorem toSizeT_of_nonneg {i : Int} (low : 0 ≤ i) (high : i < 2 ^ 64) : toSizeT i = i.toNat := by
  unfold toSizeT
  rw [Int.emod_eq_of_lt low high]

end FastGraph
