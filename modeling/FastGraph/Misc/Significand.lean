import Mathlib.Data.Nat.Log
import Mathlib.Tactic.Ring

/-!
# Rounding to a significand

A natural number that a floating-point format with `p` bits of significand holds is a multiple
of a power of two with at most `p` bits in front. Rounding goes to the nearest such number,
halfway to the even one. What is lost is less than one part in `2 ^ (p - 1)`.
-/

namespace FastGraph

/-- The distance between the numbers that `p` bits of significand hold around `n`. -/
def unitInPlace (p n : Nat) : Nat := 2 ^ (n.log2 + 1 - p)

/-- The nearest number with `p` bits of significand, halfway to even. -/
def roundNearest (p n : Nat) : Nat :=
  let unit := unitInPlace p n
  let q := n / unit
  if unit < 2 * (n % unit) ∨ unit = 2 * (n % unit) ∧ q % 2 = 1 then (q + 1) * unit else q * unit

section
variable {p n : Nat}

/-- A number of at most `p` bits stays as it is. -/
theorem roundNearest_of_lt (pos : 0 < p) (small : n < 2 ^ p) : roundNearest p n = n := by
  have unit : unitInPlace p n = 1 := by
    unfold unitInPlace
    by_cases zero : n = 0
    · rw [zero, Nat.log2_zero, Nat.sub_eq_zero_of_le (by omega), Nat.pow_zero]
    · have := (Nat.log2_lt zero).mpr small
      rw [Nat.sub_eq_zero_of_le (by omega), Nat.pow_zero]
  unfold roundNearest
  simp [unit, Nat.mod_one]

theorem mul_unitInPlace_le : n / unitInPlace p n * unitInPlace p n ≤ roundNearest p n := by
  unfold roundNearest
  dsimp only
  split
  · exact Nat.mul_le_mul_right _ (Nat.le_succ _)
  · exact le_rfl

/-- A number of more than `p` bits has `p` bits in front of the place of the unit. -/
theorem le_div_unitInPlace (pos : 0 < p) (large : 2 ^ p ≤ n) :
    2 ^ (p - 1) ≤ n / unitInPlace p n := by
  have some : n ≠ 0 := by
    rintro rfl
    exact absurd large (Nat.not_le_of_lt (Nat.two_pow_pos p))
  have bits : p ≤ n.log2 := (Nat.le_log2 some).mpr large
  unfold unitInPlace
  rw [Nat.le_div_iff_mul_le (Nat.two_pow_pos _), ← Nat.pow_add,
    show p - 1 + (n.log2 + 1 - p) = n.log2 by omega]
  exact Nat.log2_self_le some

/-- Rounding takes away less than one part in `2 ^ (p - 1)`. -/
theorem le_roundNearest (pos : 0 < p) (n : Nat) :
    2 ^ (p - 1) * n ≤ (2 ^ (p - 1) + 1) * roundNearest p n := by
  rcases Nat.lt_or_ge n (2 ^ p) with small | large
  · rw [roundNearest_of_lt pos small]
    exact Nat.mul_le_mul_right _ (Nat.le_succ _)
  · have front := le_div_unitInPlace pos large
    have place : 0 < unitInPlace p n := Nat.two_pow_pos _
    have upTo : n ≤ (n / unitInPlace p n + 1) * unitInPlace p n := by
      rw [Nat.mul_comm]
      exact (Nat.lt_mul_div_succ n place).le
    calc 2 ^ (p - 1) * n
        ≤ 2 ^ (p - 1) * ((n / unitInPlace p n + 1) * unitInPlace p n) :=
          Nat.mul_le_mul_left _ upTo
      _ = (2 ^ (p - 1) * (n / unitInPlace p n) + 2 ^ (p - 1)) * unitInPlace p n := by ring
      _ ≤ (2 ^ (p - 1) * (n / unitInPlace p n) + n / unitInPlace p n) * unitInPlace p n :=
          Nat.mul_le_mul_right _ (Nat.add_le_add_left front _)
      _ = (2 ^ (p - 1) + 1) * (n / unitInPlace p n * unitInPlace p n) := by ring
      _ ≤ (2 ^ (p - 1) + 1) * roundNearest p n := Nat.mul_le_mul_left _ mul_unitInPlace_le

end

end FastGraph
