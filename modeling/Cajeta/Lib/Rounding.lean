import Mathlib.Algebra.Ring.Nat
import Mathlib.Data.Nat.Log
import Mathlib.Tactic.Common

/-!
# Natural numbers in a binary floating-point format

A format of `p` significant bits stores a natural number as the nearest multiple of the unit in the
last place, and between two of them as the even one. The range of the exponent is not limited.
-/

namespace Rounding

/-- The nearest multiple of `u`, and of two the one of even quotient. -/
def nearest (u n : Nat) : Nat :=
  if u < 2 * (n % u) ∨ 2 * (n % u) = u ∧ n / u % 2 = 1 then (n / u + 1) * u else n / u * u

/-- The number with `p` significant bits that stands for `n`. -/
def round (p n : Nat) : Nat :=
  if n < 2 ^ p then n else nearest (2 ^ (Nat.log 2 n + 1 - p)) n

theorem dvd_nearest (u n : Nat) : u ∣ nearest u n := by
  unfold nearest
  split
  · exact Nat.dvd_mul_left ..
  · exact Nat.dvd_mul_left ..

theorem round_of_lt (h : n < 2 ^ p) : round p n = n := if_pos h

theorem even_round (h : 2 ^ p ≤ n) : 2 ∣ round p n := by
  have hp : p ≤ Nat.log 2 n := by
    rw [Nat.le_log_iff_pow_le Nat.one_lt_two]
    · exact h
    · have := Nat.two_pow_pos p
      omega
  rw [round, if_neg (Nat.not_lt.mpr h)]
  refine Nat.dvd_trans ?_ (dvd_nearest ..)
  have hunit : 2 ^ 1 ∣ 2 ^ (Nat.log 2 n + 1 - p) := Nat.pow_dvd_pow 2 (by omega)
  simpa using hunit

end Rounding
