import FastGraph.Misc.Bytes

/-!
# Little-endian words

The bytes of an unsigned number in memory and the number some bytes hold. Bytes that are
not there count as zero, which is what a short read into a zeroed word leaves.
-/

namespace FastGraph

/-- The low `n` bytes of a number, lowest first. -/
def leBytes : Nat → Nat → Bytes
  | 0, _ => []
  | n + 1, v => UInt8.ofNat v :: leBytes n (v / 256)

/-- The number whose bytes are given, lowest first. -/
def leNat : Bytes → Nat
  | [] => 0
  | b :: bs => b.toNat + 256 * leNat bs

@[simp] theorem length_leBytes (n v : Nat) : (leBytes n v).length = n := by
  induction n generalizing v with
  | zero => rfl
  | succ n ih => simp [leBytes, ih]

/-- The bytes of a number that fits hold the number. -/
theorem leNat_leBytes {n v : Nat} (fits : v < 256 ^ n) : leNat (leBytes n v) = v := by
  induction n generalizing v with
  | zero =>
    rw [Nat.pow_zero, Nat.lt_one_iff] at fits
    rw [fits]
    rfl
  | succ n ih =>
    have rest : v / 256 < 256 ^ n := by
      rw [Nat.pow_succ] at fits
      exact Nat.div_lt_of_lt_mul (by rwa [Nat.mul_comm] at fits)
    rw [leBytes, leNat, ih rest, UInt8.toNat_ofNat']
    exact Nat.mod_add_div v 256

theorem leNat_lt (bs : Bytes) : leNat bs < 256 ^ bs.length := by
  induction bs with
  | nil => exact Nat.one_pos
  | cons b bs ih =>
    have low := b.toNat_lt
    rw [leNat, List.length_cons, Nat.pow_succ]
    omega

/-- Bytes are those of the number that they hold. -/
theorem leBytes_leNat (bs : Bytes) : leBytes bs.length (leNat bs) = bs := by
  induction bs with
  | nil => rfl
  | cons b bs ih =>
    have low := b.toNat_lt
    have first : UInt8.ofNat (b.toNat + 256 * leNat bs) = b := by
      rw [← UInt8.toNat_inj, UInt8.toNat_ofNat']
      omega
    have later : (b.toNat + 256 * leNat bs) / 256 = leNat bs := by omega
    rw [leNat, List.length_cons, leBytes, first, later, ih]

end FastGraph
