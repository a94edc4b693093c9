/- # Decimals in order

A decimal stands for a rational number, which lies between two powers of ten that its digits tell.
What a decimal is read as depends on that number alone, and keeps the order.
-/

import CellularShader.Proofs.Binary.Order
import CellularShader.Proofs.Decimal.Reading
import Mathlib.Algebra.Order.Field.Power

namespace CellularShader

namespace Decimal

/-- The number that a decimal stands for. -/
def toRat (d : Decimal) : ℚ := d.coefficient * 10 ^ d.exponent

theorem scaleDown_pos (exponent : Int) : 0 < scaleDown exponent := Nat.pow_pos (by decide)

theorem toRat_eq_div (d : Decimal) :
    d.toRat = (d.coefficient * scaleUp d.exponent : Nat) / (scaleDown d.exponent : Nat) := by
  simp only [toRat, scaleUp, scaleDown, Nat.pow_eq]
  push_cast
  rcases Int.le_total 0 d.exponent with h | h
  · obtain ⟨k, hk⟩ := Int.eq_ofNat_of_zero_le h
    simp [hk]
  · obtain ⟨k, hk⟩ := Int.eq_ofNat_of_zero_le (Int.neg_nonneg.2 h)
    have hexponent : d.exponent = -k := by omega
    simp [hexponent, div_eq_mul_inv]

/-! ## Reading -/

variable {F : Format}

theorem toBinary_congr (negative : Bool) {d e : Decimal} (h : d.toRat = e.toRat) :
    d.toBinary F negative = e.toBinary F negative := by
  rw [toRat_eq_div, toRat_eq_div] at h
  exact Binary.ofRatio_congr negative (scaleDown_pos _) (scaleDown_pos _) h

/-- Of two decimals the smaller one is not read as a larger number. -/
theorem pattern_toBinary_mono {d e : Decimal} (h : d.toRat ≤ e.toRat) (negative other : Bool) :
    (d.toBinary F negative).pattern.val ≤ (e.toBinary F other).pattern.val := by
  rw [toRat_eq_div, toRat_eq_div] at h
  exact Binary.nearestPattern_mono (scaleDown_pos _) (scaleDown_pos _) h

/-- The decimals that are read as a number form an interval. -/
theorem toBinary_of_between {c d e : Decimal} {x : Binary F} (hc : c.toBinary F x.negative = x)
    (he : e.toBinary F x.negative = x) (hlow : c.toRat ≤ d.toRat) (hhigh : d.toRat ≤ e.toRat) :
    d.toBinary F x.negative = x := by
  have hle := pattern_toBinary_mono (F := F) hlow x.negative x.negative
  have hge := pattern_toBinary_mono (F := F) hhigh x.negative x.negative
  rw [hc] at hle
  rw [he] at hge
  obtain ⟨negative, pattern⟩ := x
  exact congrArg (Binary.mk negative) (Fin.ext (le_antisymm hge hle))

/-- A decimal that is read as a smaller number than a bound is below the bound. -/
theorem toRat_lt_of_toBinary {d : Decimal} {x : Binary F} {bound : Nat}
    (hd : d.toBinary F x.negative = x) (h : x.pattern.val < Binary.nearestPattern F bound 1) :
    d.toRat < bound := by
  by_contra hle
  have hmono : Binary.nearestPattern F bound 1 ≤ x.pattern.val := by
    rw [← hd]
    refine Binary.nearestPattern_mono Nat.one_pos (scaleDown_pos _) ?_
    rw [← toRat_eq_div]
    simpa using hle
  omega

/-! ## Digits -/

theorem lt_ten_pow_length_digits (d : Decimal) : d.coefficient < 10 ^ d.digits.length :=
  (Nat.length_toDigits_le_iff (by decide) (List.length_pos_iff.2 d.digits_ne_nil)).1 le_rfl

theorem ten_pow_le_of_length_digits {d : Decimal} (hpos : 0 < d.coefficient) :
    10 ^ (d.digits.length - 1) ≤ d.coefficient := by
  rcases Nat.eq_zero_or_pos (d.digits.length - 1) with hzero | hlength
  · rw [hzero, pow_zero]
    exact hpos
  · by_contra hlt
    have := (Nat.length_toDigits_le_iff (b := 10) (by decide) hlength).2 (not_le.1 hlt)
    rw [digits] at hlength this
    omega

theorem toRat_lt (d : Decimal) : d.toRat < 10 ^ (d.magnitude + 1) := by
  have hlt : (d.coefficient : ℚ) < 10 ^ d.digits.length := by
    exact_mod_cast d.lt_ten_pow_length_digits
  have hexponent : d.magnitude + 1 = d.digits.length + d.exponent := by
    rw [magnitude]
    omega
  rw [toRat, hexponent, zpow_add₀ (by norm_num), zpow_natCast]
  exact mul_lt_mul_of_pos_right hlt (by positivity)

theorem le_toRat {d : Decimal} (hpos : 0 < d.coefficient) : 10 ^ d.magnitude ≤ d.toRat := by
  have hle : (10 : ℚ) ^ (d.digits.length - 1) ≤ d.coefficient := by
    exact_mod_cast ten_pow_le_of_length_digits hpos
  have hexponent : d.magnitude = (d.digits.length - 1 : Nat) + d.exponent := by
    have := List.length_pos_iff.2 d.digits_ne_nil
    rw [magnitude]
    omega
  rw [toRat, hexponent, zpow_add₀ (by norm_num), zpow_natCast]
  exact mul_le_mul_of_nonneg_right hle (by positivity)

/-- What is read as a number other than zero has a digit other than zero. -/
theorem coefficient_pos_of_toBinary {d : Decimal} {x : Binary F} (hzero : x.isZero = false)
    (h : d.toBinary F x.negative = x) : 0 < d.coefficient := by
  by_contra hnot
  rw [toBinary, Nat.eq_zero_of_not_pos hnot, Nat.zero_mul] at h
  have hpattern : x.pattern.val = 0 := by
    have hdown := scaleDown_pos d.exponent
    rw [← h]
    simp [Binary.ofRatio, Binary.nearestPattern, divNearest, hdown]
  simp [Binary.isZero, hpattern] at hzero

theorem coefficient_shortest_pos {x : Binary F} (hx : x.isFinite = true) (hzero : x.isZero = false)
    (tie : Tie) : 0 < (shortest tie x).coefficient :=
  coefficient_pos_of_toBinary hzero (toBinary_shortest hx tie)

end Decimal

end CellularShader
