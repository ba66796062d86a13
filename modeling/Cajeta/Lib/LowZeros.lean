import Mathlib.Algebra.Ring.Nat
import Mathlib.Algebra.Divisibility.Basic
import Mathlib.Algebra.GroupWithZero.Divisibility
import Mathlib.Data.Nat.Bits
import Mathlib.Tactic.Common

/-!
# Low zero bits of words

The low `k` bits of a word are zero if it is a multiple of `2 ^ k`. Arithmetic that wraps around
keeps low zero bits, whatever the width of the words is.
-/

namespace LowZeros

/-- The number of zeros below the lowest set bit; all of the bits, if none is set. -/
def countrZero : (bits n : Nat) → Nat
  | 0, _ => 0
  | bits + 1, n => if n % 2 = 1 then 0 else countrZero bits (n / 2) + 1

theorem pow_countrZero_dvd (bits n : Nat) : 2 ^ countrZero bits n ∣ n := by
  induction bits generalizing n with
  | zero => exact one_dvd n
  | succ bits ih =>
    rw [countrZero]
    split
    · exact one_dvd n
    · next h =>
      have heven : 2 * (n / 2) = n := by omega
      have := Nat.mul_dvd_mul_left 2 (ih (n / 2))
      rw [heven] at this
      rwa [pow_succ, Nat.mul_comm]

/-- The low `k` bits are zero. -/
def Zeros (k : Nat) (x : BitVec w) : Prop := 2 ^ k ∣ x.toNat

theorem zeros_zero (x : BitVec w) : Zeros 0 x := one_dvd _

theorem Zeros.mono {x : BitVec w} (h : Zeros k x) (hle : k' ≤ k) : Zeros k' x :=
  (pow_dvd_pow 2 hle).trans h

theorem Zeros.eq_zero {x : BitVec w} (h : Zeros k x) (hle : w ≤ k) : x.toNat = 0 :=
  Nat.eq_zero_of_dvd_of_lt h (Nat.lt_of_lt_of_le x.isLt (Nat.pow_le_pow_right Nat.two_pos hle))

theorem dvd_mod {m : Nat} (h : 2 ^ k ∣ m) (w : Nat) : 2 ^ k ∣ m % 2 ^ w := by
  rcases Nat.le_total k w with hle | hle
  · exact (Nat.dvd_mod_iff (pow_dvd_pow 2 hle)).mpr h
  · rw [Nat.mod_eq_zero_of_dvd ((pow_dvd_pow 2 hle).trans h)]
    exact dvd_zero _

section
variable {x y : BitVec w}

theorem Zeros.add (hx : Zeros k x) (hy : Zeros k y) : Zeros k (x + y) := by
  rw [Zeros, BitVec.toNat_add]
  exact dvd_mod (Nat.dvd_add hx hy) w

theorem Zeros.sub (hx : Zeros k x) (hy : Zeros k y) : Zeros k (x - y) := by
  rw [Zeros, BitVec.toNat_sub]
  rcases Nat.le_total k w with hle | hle
  · exact dvd_mod (Nat.dvd_add (Nat.dvd_sub (pow_dvd_pow 2 hle) hy) hx) w
  · rw [hx.eq_zero hle, hy.eq_zero hle, Nat.sub_zero, Nat.add_zero, Nat.mod_self]
    exact dvd_zero _

theorem Zeros.mul (hx : Zeros k x) (hy : Zeros l y) : Zeros (k + l) (x * y) := by
  have h : 2 ^ (k + l) ∣ x.toNat * y.toNat := by
    rw [pow_add]
    exact Nat.mul_dvd_mul hx hy
  rw [Zeros, BitVec.toNat_mul]
  exact dvd_mod h w

theorem Zeros.shiftLeft (hx : Zeros k x) (n : Nat) : Zeros (k + n) (x <<< n) := by
  have h : 2 ^ (k + n) ∣ x.toNat * 2 ^ n := by
    rw [pow_add]
    exact Nat.mul_dvd_mul_right hx _
  rw [Zeros, BitVec.toNat_shiftLeft, Nat.shiftLeft_eq]
  exact dvd_mod h w

theorem Zeros.and_left (hx : Zeros k x) : Zeros k (x &&& y) := by
  rw [Zeros, BitVec.toNat_and, Nat.dvd_iff_mod_eq_zero, Nat.and_mod_two_pow,
    Nat.mod_eq_zero_of_dvd hx, Nat.zero_and]

theorem Zeros.and_right (hy : Zeros k y) : Zeros k (x &&& y) := by
  rw [BitVec.and_comm]
  exact hy.and_left

theorem Zeros.or (hx : Zeros k x) (hy : Zeros k y) : Zeros k (x ||| y) := by
  rw [Zeros, BitVec.toNat_or, Nat.dvd_iff_mod_eq_zero, Nat.or_mod_two_pow,
    Nat.mod_eq_zero_of_dvd hx, Nat.mod_eq_zero_of_dvd hy, Nat.or_self]

theorem Zeros.xor (hx : Zeros k x) (hy : Zeros k y) : Zeros k (x ^^^ y) := by
  rw [Zeros, BitVec.toNat_xor, Nat.dvd_iff_mod_eq_zero, Nat.xor_mod_two_pow,
    Nat.mod_eq_zero_of_dvd hx, Nat.mod_eq_zero_of_dvd hy, Nat.xor_self]

theorem Zeros.setWidth (hx : Zeros k x) (v : Nat) : Zeros k (x.setWidth v) := by
  rw [Zeros, BitVec.toNat_setWidth]
  exact dvd_mod hx v

theorem Zeros.signExtend (hx : Zeros k x) (v : Nat) : Zeros k (x.signExtend v) := by
  rw [Zeros, BitVec.toNat_signExtend]
  refine Nat.dvd_add (hx.setWidth v) ?_
  split
  · next hmsb =>
    have hlt : k < w := by
      by_contra hle
      rw [BitVec.msb_eq_decide, hx.eq_zero (Nat.le_of_not_lt hle)] at hmsb
      exact Nat.not_lt_zero _ (Nat.lt_of_lt_of_le (Nat.two_pow_pos _) (of_decide_eq_true hmsb))
    rcases Nat.le_total v w with hle | hle
    · rw [Nat.sub_eq_zero_of_le (Nat.pow_le_pow_right Nat.two_pos hle)]
      exact dvd_zero _
    · exact Nat.dvd_sub (pow_dvd_pow 2 (Nat.le_trans (Nat.le_of_lt hlt) hle))
        (pow_dvd_pow 2 (Nat.le_of_lt hlt))
  · exact dvd_zero _

end

end LowZeros
