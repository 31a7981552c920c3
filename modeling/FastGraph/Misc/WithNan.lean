import Mathlib.Order.Defs.LinearOrder

/-!
# Numbers and a value that compares with nothing

A `double` is a number, infinities included and the two zeros being one, or a NaN: no comparison
with a NaN holds, not even its equality with itself.
-/

namespace FastGraph

/-- A number of an ordered type, or a NaN. -/
inductive WithNan (E : Type) where
  | nan
  | num (x : E)
  deriving Repr

namespace WithNan
variable {E : Type}

instance instInhabited : Inhabited (WithNan E) := ⟨nan⟩

/-- `operator<`. -/
instance instLT [LT E] : LT (WithNan E) where
  lt
    | num x, num y => x < y
    | _, _ => False

/-- `operator<=`. -/
instance instLE [LE E] : LE (WithNan E) where
  le
    | num x, num y => x ≤ y
    | _, _ => False

/-- `operator==`. -/
instance instBEq [BEq E] : BEq (WithNan E) where
  beq
    | num x, num y => x == y
    | _, _ => false

instance instDecidableLT [LT E] [DecidableLT E] : DecidableLT (WithNan E)
  | num x, num y => inferInstanceAs (Decidable (x < y))
  | nan, _ => .isFalse id
  | num _, nan => .isFalse id

instance instDecidableLE [LE E] [DecidableLE E] : DecidableLE (WithNan E)
  | num x, num y => inferInstanceAs (Decidable (x ≤ y))
  | nan, _ => .isFalse id
  | num _, nan => .isFalse id

variable {x y : E} {a : WithNan E}

@[simp] theorem num_lt_num [LT E] : num x < num y ↔ x < y := Iff.rfl

@[simp] theorem not_nan_lt [LT E] : ¬ nan < a := id

@[simp] theorem not_lt_nan [LT E] : ¬ a < nan := by
  cases a <;> exact id

@[simp] theorem num_le_num [LE E] : num x ≤ num y ↔ x ≤ y := Iff.rfl

@[simp] theorem not_nan_le [LE E] : ¬ nan ≤ a := id

@[simp] theorem num_beq_num [BEq E] : (num x == num y) = (x == y) := rfl

@[simp] theorem nan_beq [BEq E] : (nan == a) = false := rfl

@[simp] theorem beq_nan [BEq E] : (a == nan) = false := by
  cases a <;> rfl

/-- A bound, a NaN or not, is above what is below a number that it is above. -/
theorem num_lt_of_le [Preorder E] (le : x ≤ y) (less : num y < a) : num x < a := by
  cases a with
  | nan => exact absurd less not_lt_nan
  | num b => exact num_lt_num.mpr (lt_of_le_of_lt le (num_lt_num.mp less))

theorem num_le_of_le [Preorder E] (le : x ≤ y) (bound : num y ≤ a) : num x ≤ a := by
  cases a with
  | nan => exact bound.elim
  | num b => exact num_le_num.mpr (le_trans le (num_le_num.mp bound))

end WithNan

end FastGraph
