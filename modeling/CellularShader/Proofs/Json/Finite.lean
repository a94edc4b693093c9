/- # Numbers that are read are finite

The digits of a number are gathered into a word, whose float is far from the greatest one. Powers of
ten are at least one, so a division by them stays in range, and a product out of range is refused.
A float that is read is finite therefore, and a numeral has a value whenever its magnitude is in
range.
-/

import CellularShader.Json.Numeral
import CellularShader.Proofs.Binary.Rounding

namespace CellularShader

/-! ## Rounding -/

namespace Binary

/-- A quotient is at most doubled or halved by rounding, up to one unit. -/
theorem units_ofRatio_bounds {F : Format} (negative : Bool) {n d : Nat} (hd : 0 < d)
    (hfinite : (ofRatio F negative n d).isFinite = true) :
    (ofRatio F negative n d).units * d ≤ 2 * (n * 2 ^ F.unitScale) + d ∧
      n * 2 ^ F.unitScale ≤ 2 * ((ofRatio F negative n d).units * d) + d := by
  obtain ⟨dropped, hunits, hlow⟩ := units_ofRatio negative hd hfinite
  have hwidth : d * 2 ^ dropped = d ∨ d * 2 ^ dropped ≤ n * 2 ^ F.unitScale := by
    refine hlow.imp (fun h => by rw [h, pow_zero, mul_one]) fun h => le_trans ?_ h
    calc d * 2 ^ dropped = 1 * 2 ^ dropped * d := by ring
      _ ≤ 2 ^ F.fractionBits * 2 ^ dropped * d := by gcongr; exact Nat.one_le_two_pow
  have herror := divNearest_error (n * 2 ^ F.unitScale) (Nat.mul_pos hd (Nat.two_pow_pos dropped))
  rw [hunits, mul_assoc, mul_comm (2 ^ dropped)]
  omega

/-- Finite floats of a magnitude less than a power of two. -/
def IsBelow (x : Double) (k : Nat) : Prop :=
  x.isFinite = true ∧ x.units < 2 ^ (Format.double.unitScale + k)

theorem isFinite_ofRatio_double (negative : Bool) {n d : Nat} (hd : 0 < d)
    (h : n * 2 ^ Format.double.unitScale < 2 ^ (Format.double.unitScale + 70) * d) :
    (ofRatio .double negative n d).isFinite = true := by
  have hexponent : Format.double.unitScale + 70 = Format.double.fractionBits + 1092 := rfl
  exact isFinite_ofRatio negative 1092 hd (hexponent ▸ h) (by decide)

theorem isBelow_ofInt {n : Int} (hn : n.natAbs < 2 ^ 65) : (ofInt .double n).IsBelow 67 := by
  have hscaled : n.natAbs * 2 ^ Format.double.unitScale < 2 ^ 65 * 2 ^ Format.double.unitScale :=
    Nat.mul_lt_mul_of_pos_right hn (Nat.two_pow_pos _)
  have hfinite : (ofRatio .double (n < 0) n.natAbs 1).isFinite = true := by
    refine isFinite_ofRatio_double _ Nat.one_pos ?_
    rw [pow_add]
    generalize 2 ^ Format.double.unitScale = unit at *
    omega
  have hle := (units_ofRatio_bounds _ Nat.one_pos hfinite).1
  refine ⟨hfinite, ?_⟩
  rw [ofInt, pow_add]
  generalize 2 ^ Format.double.unitScale = unit at *
  omega

/-- A division by one or more leaves a number about as small as it was. -/
theorem IsBelow.div {x y : Double} {k : Nat} (hx : x.IsBelow k) (hk : k ≤ 70)
    (hy : 2 ^ Format.double.unitScale ≤ y.units) : (x.div y).IsBelow (k + 2) := by
  have hpos : 0 < y.units := lt_of_lt_of_le (Nat.two_pow_pos _) hy
  have hscaled : x.units * 2 ^ Format.double.unitScale ≤ x.units * y.units :=
    Nat.mul_le_mul_left _ hy
  have hfinite : (x.div y).isFinite = true := by
    refine isFinite_ofRatio_double _ hpos (lt_of_le_of_lt hscaled ?_)
    have hbound : 2 ^ (Format.double.unitScale + k) ≤ 2 ^ (Format.double.unitScale + 70) := by
      generalize Format.double.unitScale = scale
      exact Nat.pow_le_pow_right two_pos (by omega)
    exact Nat.mul_lt_mul_of_pos_right (lt_of_lt_of_le hx.2 hbound) hpos
  have hle : (x.div y).units * y.units ≤ (2 * x.units + 1) * y.units := by
    calc (x.div y).units * y.units ≤ 2 * (x.units * 2 ^ Format.double.unitScale) + y.units :=
          (units_ofRatio_bounds _ hpos hfinite).1
      _ ≤ 2 * (x.units * y.units) + y.units := by gcongr
      _ = (2 * x.units + 1) * y.units := by ring
  refine ⟨hfinite, ?_⟩
  have := Nat.le_of_mul_le_mul_right hle hpos
  have := hx.2
  rw [← add_assoc, pow_add]
  omega

end Binary

namespace Json

namespace Numeral

/-! ## Digits in a word -/

theorem gather_lt {word : Nat} (hword : word < wordBound) (ds : List Char) :
    (gather word ds).1 < wordBound := by
  induction ds generalizing word with
  | nil => exact hword
  | cons c ds ih =>
    rw [gather]
    split_ifs with h
    · exact ih h
    · exact hword

theorem significand_lt (numeral : Numeral) : numeral.significand.1 < wordBound :=
  gather_lt (gather_lt (by decide) _) _

/-! ## Magnitudes -/

theorem le_units_powerOfTen {n : Nat} (hpos : 0 < n) (hn : n ≤ scaleLimit) :
    2 ^ Format.double.unitScale ≤ (powerOfTen n).units := by
  rcases hn.lt_or_eq with hlt | rfl
  · have hpow : 10 ^ n < 2 ^ 1020 :=
      lt_of_le_of_lt (Nat.pow_le_pow_right (by decide) (Nat.le_of_lt_succ hlt)) (by decide +kernel)
    have hten : 10 ≤ 10 ^ n := Nat.le_self_pow hpos.ne' 10
    have hfinite : (powerOfTen n).isFinite = true := by
      refine Binary.isFinite_ofRatio _ 2042 Nat.one_pos ?_ (by decide)
      rw [Int.natAbs_natCast, mul_one]
      have hexponent : Format.double.fractionBits + 2042 = 1020 + Format.double.unitScale := rfl
      rw [hexponent, pow_add]
      exact Nat.mul_lt_mul_of_pos_right hpow (Nat.two_pow_pos _)
    have hbound : 10 ^ n * 2 ^ Format.double.unitScale ≤ 2 * ((powerOfTen n).units * 1) + 1 :=
      (Binary.units_ofRatio_bounds _ Nat.one_pos hfinite).2
    have hscaled : 10 * 2 ^ Format.double.unitScale ≤ 10 ^ n * 2 ^ Format.double.unitScale :=
      Nat.mul_le_mul_right _ hten
    generalize 2 ^ Format.double.unitScale = unit at *
    omega
  · decide +kernel

theorem isFinite_scale {x y : Double} (hx : x.IsBelow 67) {e : Int} (h : scale x e = .ok y) :
    y.isFinite = true := by
  unfold scale at h
  simp only at h
  split_ifs at h with hzero hbig hmul hfinite hnear hfar
  · cases h
    exact hx.1
  · cases h
    exact hfinite
  · cases h
    exact (hx.div (by omega) (le_units_powerOfTen (by omega) (by omega))).1
  · cases h
    have hfirst := hx.div (by omega) (le_units_powerOfTen (by decide) le_rfl)
    exact (hfirst.div (by omega) (le_units_powerOfTen (by omega) (by omega))).1
  · cases h
    exact (Binary.isBelow_ofInt (by decide)).1

theorem isFinite_magnitude {numeral : Numeral} {x : Double} (h : numeral.magnitude = .ok x) :
    x.isFinite = true := by
  have hword : (Binary.ofInt .double numeral.significand.1).IsBelow 67 := by
    have hlt : numeral.significand.1 < 2 ^ 64 := numeral.significand_lt
    exact Binary.isBelow_ofInt (by omega)
  unfold magnitude at h
  simp only at h
  split at h
  · exact isFinite_scale hword h
  · split_ifs at h
    · exact isFinite_scale hword h
    · exact isFinite_scale hword h
    · cases h
      exact (Binary.isBelow_ofInt (by decide)).1

theorem value_of_magnitude {numeral : Numeral}
    (hinteger : numeral.integer?.bind Number.ofInt? = none) {x : Double}
    (hx : numeral.magnitude = .ok x) :
    ∃ h, numeral.value = .ok (.float (if numeral.negative then x.neg else x) h) := by
  have hmagnitude := isFinite_magnitude hx
  have hfinite : (if numeral.negative then x.neg else x).isFinite = true := by
    split
    · exact hmagnitude
    · exact hmagnitude
  refine ⟨hfinite, ?_⟩
  simp only [value, hinteger, hx, Number.ofDouble?, dif_pos hfinite, bind, Except.bind]
  rfl

end Numeral

/-- The float that a number counts as is finite. -/
theorem Number.isFinite_toDouble (n : Number) : n.toDouble.isFinite = true := by
  cases n with
  | integer n hn =>
    have hlow : -2 ^ 63 ≤ n := le_trans (by decide) hn.1
    have hhigh : n < 2 ^ 64 := hn.2
    exact (Binary.isBelow_ofInt (by omega)).1
  | float x hx => exact hx

end Json

end CellularShader
