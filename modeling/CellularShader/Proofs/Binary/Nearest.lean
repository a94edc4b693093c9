/- # The nearest number

A quotient is rounded to a number that is as near to it as any other, and of two that are equally
near, to the one with the even pattern. Infinity counts as the number that would follow the largest
finite one. There is only one such number up to the sign of zero, for between two different numbers
with even patterns there is a third one.
-/

import CellularShader.Glsl.Semantics
import CellularShader.Proofs.Binary.Order

namespace CellularShader

/-! ## Multiples -/

/-- How far a multiple of the divisor is from the dividend. -/
def distance (n d j : Nat) : Int := |((j * d : Nat) : Int) - n|

/-- Below one half a quotient is rounded down, above it up, and from one half to an even number. -/
theorem divNearest_cases (n d : Nat) :
    (2 * (n % d) < d ∧ divNearest n d = n / d) ∨
      (2 * (n % d) = d ∧ divNearest n d % 2 = 0 ∧
        (divNearest n d = n / d ∨ divNearest n d = n / d + 1)) ∨
      (d < 2 * (n % d) ∧ divNearest n d = n / d + 1) := by
  simp only [divNearest]
  split <;> omega

/-- The multiples of a divisor lie on either side of the two around the dividend. -/
theorem mul_le_or_le_mul (n d j : Nat) :
    j = n / d ∨ j = n / d + 1 ∨ j * d + d ≤ n / d * d ∨ n / d * d + 2 * d ≤ j * d := by
  rcases Nat.lt_trichotomy j (n / d) with hlt | heq | hgt
  · have := Nat.mul_le_mul_right d hlt
    rw [Nat.succ_mul] at this
    omega
  · exact .inl heq
  · rcases Nat.lt_or_ge (n / d + 1) j with hlt | hge
    · have := Nat.mul_le_mul_right d hlt
      rw [Nat.succ_mul, Nat.add_mul] at this
      omega
    · omega

/-- No multiple of the divisor is nearer to the dividend. -/
theorem divNearest_nearest (n : Nat) {d : Nat} (hd : 0 < d) (j : Nat) :
    distance n d (divNearest n d) ≤ distance n d j := by
  have hsplit := Nat.div_add_mod' n d
  have hmod := Nat.mod_lt n hd
  have hup : (n / d + 1) * d = n / d * d + d := by rw [Nat.add_mul, Nat.one_mul]
  simp only [distance, abs_eq_max_neg]
  rcases divNearest_cases n d with ⟨h, hq⟩ | ⟨h, -, hq | hq⟩ | ⟨h, hq⟩ <;>
    rcases mul_le_or_le_mul n d j with rfl | rfl | hj | hj <;> rw [hq] <;> omega

/-- If another one is as near, the quotient is even. -/
theorem divNearest_even {n d : Nat} (hd : 0 < d) {j : Nat} (hne : j ≠ divNearest n d)
    (htie : distance n d j = distance n d (divNearest n d)) : divNearest n d % 2 = 0 := by
  have hsplit := Nat.div_add_mod' n d
  have hmod := Nat.mod_lt n hd
  have hup : (n / d + 1) * d = n / d * d + d := by rw [Nat.add_mul, Nat.one_mul]
  simp only [distance, abs_eq_max_neg] at htie
  -- Away from one half, no other multiple is as near.
  rcases divNearest_cases n d with ⟨h, hq⟩ | ⟨-, heven, -⟩ | ⟨h, hq⟩
  · rw [hq] at hne htie
    rcases mul_le_or_le_mul n d j with rfl | rfl | hj | hj <;> omega
  · exact heven
  · rw [hq] at hne htie
    rcases mul_le_or_le_mul n d j with rfl | rfl | hj | hj <;> omega

/-! ## Signs -/

/-- A number that a minus sign may stand before. -/
def withSign (negative : Bool) (q : ℚ) : ℚ := if negative then -q else q

theorem abs_withSign (negative : Bool) (q : ℚ) : |withSign negative q| = |q| := by
  cases negative with
  | false => rfl
  | true => exact abs_neg q

theorem abs_withSign_sub (negative : Bool) (a b : ℚ) :
    |withSign negative a - withSign negative b| = |a - b| := by
  cases negative with
  | false => rfl
  | true => rw [withSign, withSign, if_pos rfl, if_pos rfl, neg_sub_neg, abs_sub_comm]

theorem abs_withSign_sub_of_ne {negative other : Bool} (h : negative ≠ other) {a b : ℚ}
    (ha : 0 ≤ a) (hb : 0 ≤ b) : |withSign negative a - withSign other b| = a + b := by
  rw [Bool.eq_not_of_ne h]
  cases other with
  | false =>
    simp only [withSign, Bool.not_false, if_true, Bool.false_eq_true, if_false]
    rw [abs_of_nonpos (by linarith)]
    ring
  | true =>
    simp only [withSign, Bool.not_true, if_true, Bool.false_eq_true, if_false]
    rw [abs_of_nonneg (by linarith)]
    ring

namespace Binary

variable {F : Format}

/-! ## Magnitudes -/

/-- A magnitude is a multiple of a power of two, or smaller than those that need the power. -/
theorem units_eq_mul_or_lt (y : Binary F) (k : Nat) :
    (∃ j, y.units = j * 2 ^ k) ∨ k ≠ 0 ∧ y.units < 2 ^ F.fractionBits * 2 ^ k := by
  obtain ⟨dropped, q, h⟩ := y.exists_significand
  rcases Nat.lt_or_ge dropped k with hlt | hle
  · right
    refine ⟨by omega, ?_⟩
    calc y.units = q * 2 ^ dropped := h.units_eq
      _ < 2 * 2 ^ F.fractionBits * 2 ^ dropped :=
        Nat.mul_lt_mul_of_pos_right h.lt (Nat.two_pow_pos _)
      _ = 2 ^ F.fractionBits * 2 ^ (dropped + 1) := by ring
      _ ≤ 2 ^ F.fractionBits * 2 ^ k :=
        Nat.mul_le_mul_left _ (Nat.pow_le_pow_right Nat.two_pos hlt)
  · left
    refine ⟨q * 2 ^ (dropped - k), ?_⟩
    rw [h.units_eq, Nat.mul_assoc, ← pow_add, Nat.sub_add_cancel hle]

/-- A magnitude that is as near to a quotient as any other, and whose pattern is even if another one
is equally near. -/
structure NearestUnits (n d : Nat) (x : Binary F) : Prop where
  nearest : ∀ y : Binary F, y.isNaN = false → distance n d x.units ≤ distance n d y.units
  even : ∀ y : Binary F, y.isNaN = false → y.units ≠ x.units →
    distance n d y.units = distance n d x.units → x.pattern.val % 2 = 0

theorem distance_mul_pow (n d j k : Nat) : distance n d (j * 2 ^ k) = distance n (d * 2 ^ k) j := by
  rw [distance, distance, Nat.mul_assoc, Nat.mul_comm (2 ^ k)]

/-- No magnitude is nearer than the nearest multiple of the power of two that is dropped. Smaller
magnitudes need not be multiples, but the smallest one with a full significand is nearer. -/
theorem nearestUnits_of_significand {n d k : Nat} {x : Binary F} (hd : 0 < d)
    (hlow : k = 0 ∨ 2 ^ F.fractionBits * (d * 2 ^ k) ≤ n)
    (hunits : x.units = divNearest n (d * 2 ^ k) * 2 ^ k)
    (hparity : x.pattern.val % 2 = divNearest n (d * 2 ^ k) % 2) : x.NearestUnits n d := by
  have hwidth : 0 < d * 2 ^ k := Nat.mul_pos hd (Nat.two_pow_pos _)
  have hbest : distance n d x.units = distance n (d * 2 ^ k) (divNearest n (d * 2 ^ k)) := by
    rw [hunits, distance_mul_pow]
  have hsmall (y : Binary F) (hk : k ≠ 0) (hlt : y.units < 2 ^ F.fractionBits * 2 ^ k) :
      distance n d x.units < distance n d y.units := by
    have hfull := hlow.resolve_left hk
    have hlt : y.units * d < 2 ^ F.fractionBits * (d * 2 ^ k) :=
      calc y.units * d < 2 ^ F.fractionBits * 2 ^ k * d := Nat.mul_lt_mul_of_pos_right hlt hd
        _ = 2 ^ F.fractionBits * (d * 2 ^ k) := by ring
    refine (hbest.trans_le (divNearest_nearest n hwidth (2 ^ F.fractionBits))).trans_lt ?_
    simp only [distance, abs_eq_max_neg]
    omega
  constructor
  · intro y _
    rcases y.units_eq_mul_or_lt k with ⟨j, hj⟩ | ⟨hk, hlt⟩
    · rw [hbest, hj, distance_mul_pow]
      exact divNearest_nearest n hwidth j
    · exact (hsmall y hk hlt).le
  · intro y _ hne htie
    rcases y.units_eq_mul_or_lt k with ⟨j, hj⟩ | ⟨hk, hlt⟩
    · rw [hparity]
      refine divNearest_even hwidth (j := j) ?_ ?_
      · rintro rfl
        exact hne (hj.trans hunits.symm)
      · rw [← distance_mul_pow, ← hj, htie, hbest]
    · exact absurd htie (hsmall y hk hlt).ne'

theorem pattern_le_of_isNaN {y : Binary F} (h : y.isNaN = false) : y.pattern.val ≤ F.infinity := by
  simpa [isNaN] using h

/-- A quotient above all magnitudes is nearest to the largest one. -/
theorem nearestUnits_of_infinity {n d : Nat} {x : Binary F} (hd : 0 < d)
    (hpattern : x.pattern.val = F.infinity) (h : x.units * d ≤ n) : x.NearestUnits n d := by
  have hle (y : Binary F) (hy : y.isNaN = false) : y.units * d ≤ x.units * d :=
    Nat.mul_le_mul_right d (units_le_of_pattern_le (hpattern ▸ pattern_le_of_isNaN hy))
  constructor
  · intro y hy
    have := hle y hy
    simp only [distance, abs_eq_max_neg]
    omega
  · intro y hy hne htie
    have := hle y hy
    simp only [distance, abs_eq_max_neg] at htie
    exact absurd (Nat.eq_of_mul_eq_mul_right hd (by omega)) hne

/-- The magnitude of infinity. -/
theorem units_of_infinity {x : Binary F} (h : x.pattern.val = F.infinity) :
    x.units = magnitudeOf F (2 ^ F.exponentBits - 1) 0 :=
  units_of_fields h (Nat.two_pow_pos _)

/-- A quotient whose pattern would be behind that of infinity is no smaller than infinity. -/
theorem infinity_le_of_overflow {n d k : Nat} (hd : 0 < d)
    (hlow : k = 0 ∨ 2 ^ F.fractionBits * (d * 2 ^ k) ≤ n)
    (hhigh : divNearest n (d * 2 ^ k) ≤ 2 * 2 ^ F.fractionBits)
    (hover : F.infinity < k * 2 ^ F.fractionBits + divNearest n (d * 2 ^ k)) :
    magnitudeOf F (2 ^ F.exponentBits - 1) 0 * d ≤ n := by
  simp only [Format.infinity, Nat.pow_eq] at hover
  cases hexponent : 2 ^ F.exponentBits - 1 with
  | zero => simp [magnitudeOf]
  | succ e =>
    rw [hexponent] at hover
    -- A carry adds one to the exponent, so no fewer bits are dropped than for infinity.
    have hle : e ≤ k := by
      by_contra hlt
      have := Nat.mul_le_mul_right (2 ^ F.fractionBits) (show k + 2 ≤ e + 1 by omega)
      rw [Nat.add_mul k 2] at this
      omega
    have hfull : 2 ^ F.fractionBits * (d * 2 ^ k) ≤ n := by
      rcases hlow with rfl | hlow
      · by_contra hlt
        have := divNearest_le (Nat.mul_pos hd (Nat.two_pow_pos 0)) (not_le.1 hlt)
        rw [Nat.zero_mul, Nat.add_mul] at hover
        omega
      · exact hlow
    calc magnitudeOf F (e + 1) 0 * d = 2 ^ F.fractionBits * (d * 2 ^ e) := by
          simp only [magnitudeOf, Nat.succ_ne_zero, if_false, Nat.add_zero, Nat.add_sub_cancel]
          ring
      _ ≤ 2 ^ F.fractionBits * (d * 2 ^ k) :=
        Nat.mul_le_mul_left _ (Nat.mul_le_mul_left _ (Nat.pow_le_pow_right Nat.two_pos hle))
      _ ≤ n := hfull

/-- A quotient is rounded to the nearest magnitude. -/
theorem nearestUnits_ofRatio (hfraction : 0 < F.fractionBits) (negative : Bool) (n : Nat) {d : Nat}
    (hd : 0 < d) : (ofRatio F negative n d).NearestUnits (n * 2 ^ F.unitScale) d := by
  generalize hscaled : n * 2 ^ F.unitScale = scaled
  generalize hdropped : (scaled / d).log2 - F.fractionBits = k
  have hwidth : 0 < d * 2 ^ k := Nat.mul_pos hd (Nat.two_pow_pos _)
  have hlow : k = 0 ∨ 2 ^ F.fractionBits * (d * 2 ^ k) ≤ scaled :=
    hdropped ▸ significands_le F.fractionBits scaled hd
  have hhigh : scaled < 2 * 2 ^ F.fractionBits * (d * 2 ^ k) :=
    hdropped ▸ lt_significands F.fractionBits scaled hd
  have hbound := divNearest_le hwidth hhigh
  have hpattern : (ofRatio F negative n d).pattern.val =
      min F.infinity (k * 2 ^ F.fractionBits + divNearest scaled (d * 2 ^ k)) := by
    simp only [ofRatio, nearestPattern, Nat.pow_eq, hscaled, hdropped]
  rcases Nat.lt_or_ge F.infinity (k * 2 ^ F.fractionBits + divNearest scaled (d * 2 ^ k))
    with hover | hfits
  · rw [min_eq_left hover.le] at hpattern
    refine nearestUnits_of_infinity hd hpattern ?_
    rw [units_of_infinity hpattern]
    exact infinity_le_of_overflow hd hlow hbound hover
  · rw [min_eq_right hfits] at hpattern
    refine nearestUnits_of_significand hd hlow ?_ ?_
    · exact units_of_significand hpattern (hlow.imp_right fun h => le_divNearest hwidth h) hbound
    · obtain ⟨b, hb⟩ : ∃ b, F.fractionBits = b + 1 := ⟨F.fractionBits - 1, by omega⟩
      have heven : k * 2 ^ F.fractionBits = 2 * (k * 2 ^ b) := by
        rw [hb]
        ring
      rw [hpattern, heven]
      omega

/-! ## Exact values -/

theorem toRat_eq_div (x : Binary F) : x.toRat = x.value / 2 ^ F.unitScale := by
  rw [toRat, Rat.mkRat_eq_div, Nat.pow_eq]
  push_cast
  rfl

theorem toRat_eq_withSign (x : Binary F) :
    x.toRat = withSign x.negative (x.units / 2 ^ F.unitScale) := by
  rw [toRat_eq_div, value, withSign]
  split
  · push_cast
    exact neg_div _ _
  · push_cast
    rfl

theorem abs_toRat (x : Binary F) : |x.toRat| = x.units / 2 ^ F.unitScale := by
  rw [toRat_eq_withSign, abs_withSign, abs_of_nonneg (by positivity)]

/-- A number that is as near to another one as any, and whose pattern is even if a different number
is equally near. -/
structure IsNearest (q : ℚ) (x : Binary F) : Prop where
  isNumber : x.isNaN = false
  nearest : ∀ y : Binary F, y.isNaN = false → |x.toRat - q| ≤ |y.toRat - q|
  even : ∀ y : Binary F, y.isNaN = false → y.toRat ≠ x.toRat → |y.toRat - q| = |x.toRat - q| →
    x.pattern.val % 2 = 0

/-- The zero with a given sign. -/
def zero (F : Format) (negative : Bool) : Binary F := ⟨negative, ⟨0, Nat.two_pow_pos _⟩⟩

theorem units_zero (negative : Bool) : (zero F negative).units = 0 := by
  simp [zero, units]

theorem isNaN_zero (negative : Bool) : (zero F negative).isNaN = false := by
  simp [zero, isNaN]

/-- Under the same sign, distances are distances of magnitudes. -/
theorem abs_toRat_sub (y : Binary F) (n : Nat) {d : Nat} (hd : 0 < d) :
    |y.toRat - withSign y.negative (n / d)| =
      distance (n * 2 ^ F.unitScale) d y.units / (2 ^ F.unitScale * d) := by
  have hd' : (0 : ℚ) < d := by exact_mod_cast hd
  rw [toRat_eq_withSign, abs_withSign_sub, distance, div_sub_div _ _ (by positivity) hd'.ne',
    abs_div, abs_of_pos (mul_pos (by positivity) hd')]
  push_cast
  ring_nf

theorem abs_zero_sub (negative : Bool) {q : ℚ} (hq : 0 ≤ q) :
    |(zero F negative).toRat - withSign negative q| = q := by
  rw [toRat_eq_withSign, units_zero, Nat.cast_zero, zero_div]
  exact (abs_withSign_sub _ _ _).trans (by rw [zero_sub, abs_neg, abs_of_nonneg hq])

/-- The nearest magnitude makes the nearest number. Of the numbers under the other sign none is
nearer than zero. -/
theorem NearestUnits.isNearest {x : Binary F} {n d : Nat} (hd : 0 < d)
    (hx : x.NearestUnits (n * 2 ^ F.unitScale) d) (hnumber : x.isNaN = false) :
    IsNearest (withSign x.negative (n / d)) x := by
  have hpos : (0 : ℚ) < 2 ^ F.unitScale * d := mul_pos (by positivity) (by exact_mod_cast hd)
  have hq : (0 : ℚ) ≤ n / d := by positivity
  have hle (y : Binary F) (hy : y.isNaN = false) (hsame : y.negative = x.negative) :
      |x.toRat - withSign x.negative (n / d)| ≤ |y.toRat - withSign x.negative (n / d)| := by
    rw [abs_toRat_sub x n hd, ← hsame, abs_toRat_sub y n hd]
    exact div_le_div_of_nonneg_right (by exact_mod_cast hx.nearest y hy) hpos.le
  have heven (y : Binary F) (hy : y.isNaN = false) (hsame : y.negative = x.negative)
      (hne : y.units ≠ x.units)
      (htie : |y.toRat - withSign x.negative (n / d)| = |x.toRat - withSign x.negative (n / d)|) :
      x.pattern.val % 2 = 0 := by
    rw [abs_toRat_sub x n hd, ← hsame, abs_toRat_sub y n hd, div_left_inj' hpos.ne'] at htie
    exact hx.even y hy hne (by exact_mod_cast htie)
  have hzero := hle (zero F x.negative) (isNaN_zero _) rfl
  rw [abs_zero_sub _ hq] at hzero
  have hother (y : Binary F) (hdiffer : y.negative ≠ x.negative) :
      |y.toRat - withSign x.negative (n / d)| = y.units / 2 ^ F.unitScale + n / d := by
    rw [toRat_eq_withSign]
    exact abs_withSign_sub_of_ne hdiffer (by positivity) hq
  constructor
  case isNumber => exact hnumber
  case nearest =>
    intro y hy
    by_cases hsame : y.negative = x.negative
    · exact hle y hy hsame
    · rw [hother y hsame]
      exact hzero.trans (le_add_of_nonneg_left (by positivity))
  case even =>
    intro y hy hne htie
    by_cases hsame : y.negative = x.negative
    · refine heven y hy hsame (fun hunits => hne ?_) htie
      rw [toRat_eq_withSign y, toRat_eq_withSign x, hsame, hunits]
    · -- What is equally near under the other sign is a zero.
      rw [hother y hsame] at htie
      have hunits : y.units = 0 := by
        by_contra hunits
        have : (0 : ℚ) < y.units / 2 ^ F.unitScale :=
          div_pos (by exact_mod_cast Nat.pos_of_ne_zero hunits) (by positivity)
        linarith
      refine heven (zero F x.negative) (isNaN_zero _) rfl ?_ ?_
      · rw [units_zero]
        intro hx0
        refine hne ?_
        rw [toRat_eq_withSign y, toRat_eq_withSign x, hunits, ← hx0]
        simp [withSign]
      · rw [abs_zero_sub _ hq, ← htie, hunits, Nat.cast_zero, zero_div, zero_add]

/-- A quotient is rounded to the number nearest to it. -/
theorem isNearest_ofRatio (hfraction : 0 < F.fractionBits) (negative : Bool) (n : Nat) {d : Nat}
    (hd : 0 < d) : IsNearest (withSign negative (n / d)) (ofRatio F negative n d) := by
  refine (nearestUnits_ofRatio hfraction negative n hd).isNearest hd ?_
  simp [isNaN, ofRatio, nearestPattern]

/-! ## Uniqueness -/

/-- The place of a number in the order of all numbers. -/
def index (x : Binary F) : Int := if x.negative then -(x.pattern.val : Int) else x.pattern.val

theorem value_lt_iff {x y : Binary F} : x.value < y.value ↔ x.index < y.index := by
  have hlt : x.units < y.units ↔ x.pattern.val < y.pattern.val :=
    ⟨pattern_lt_of_units_lt, units_lt_of_pattern_lt⟩
  have hgt : y.units < x.units ↔ y.pattern.val < x.pattern.val :=
    ⟨pattern_lt_of_units_lt, units_lt_of_pattern_lt⟩
  have hzero (z : Binary F) : z.units = 0 ↔ z.pattern.val = 0 := by
    rw [units_eq_zero_iff, isZero, beq_iff_eq]
  have hx := hzero x
  have hy := hzero y
  simp only [value, index]
  split_ifs <;> omega

theorem toRat_lt_iff {x y : Binary F} : x.toRat < y.toRat ↔ x.index < y.index := by
  rw [toRat_eq_div, toRat_eq_div, div_lt_div_iff_of_pos_right (by positivity), Int.cast_lt,
    value_lt_iff]

theorem exists_index {k : Int} (h : k.natAbs ≤ F.infinity) :
    ∃ z : Binary F, z.isNaN = false ∧ z.index = k := by
  refine ⟨⟨decide (k < 0), ⟨k.natAbs, h.trans_lt F.infinity_lt_patterns⟩⟩, ?_, ?_⟩
  · simpa [isNaN] using h
  · simp only [index, decide_eq_true_eq]
    split_ifs <;> omega

/-- Between two numbers with even patterns there is a third one. -/
theorem exists_between {x y : Binary F} (hx : x.isNaN = false) (hy : y.isNaN = false)
    (hxeven : x.pattern.val % 2 = 0) (hyeven : y.pattern.val % 2 = 0) (hlt : x.toRat < y.toRat) :
    ∃ z : Binary F, z.isNaN = false ∧ x.toRat < z.toRat ∧ z.toRat < y.toRat := by
  have hxle := pattern_le_of_isNaN hx
  have hyle := pattern_le_of_isNaN hy
  rw [toRat_lt_iff] at hlt
  have hnext : x.index + 1 < y.index ∧ (x.index + 1).natAbs ≤ F.infinity := by
    simp only [index] at hlt ⊢
    split_ifs at hlt ⊢ <;> omega
  obtain ⟨z, hz, hindex⟩ := exists_index hnext.2
  refine ⟨z, hz, ?_, ?_⟩
  · rw [toRat_lt_iff]
    omega
  · rw [toRat_lt_iff]
    omega

/-- Only one number is nearest. -/
theorem IsNearest.toRat_eq {q : ℚ} {x y : Binary F} (hx : IsNearest q x) (hy : IsNearest q y) :
    x.toRat = y.toRat := by
  by_contra hne
  wlog hlt : x.toRat < y.toRat generalizing x y
  · exact this hy hx (Ne.symm hne) (lt_of_le_of_ne (not_lt.1 hlt) (Ne.symm hne))
  have htie : |x.toRat - q| = |y.toRat - q| :=
    le_antisymm (hx.nearest y hy.isNumber) (hy.nearest x hx.isNumber)
  obtain ⟨z, hz, hxz, hzy⟩ := exists_between hx.isNumber hy.isNumber
    (hx.even y hy.isNumber (Ne.symm hne) htie.symm) (hy.even x hx.isNumber hne htie) hlt
  -- The two are equally far from their midpoint, and what lies between them is nearer to it.
  have hmiddle : x.toRat - q = -(y.toRat - q) := by
    rcases abs_eq_abs.1 htie with h | h
    · exact absurd (sub_left_inj.1 h) hne
    · exact h
  have hnearer : |z.toRat - q| < |x.toRat - q| := by
    rw [abs_of_nonpos (show x.toRat - q ≤ 0 by linarith), abs_lt]
    constructor <;> linarith
  exact absurd (hx.nearest z hz) (not_le.2 hnearer)

/-- A number other than zero is determined by its value. -/
theorem eq_of_toRat {x y : Binary F} (hzero : x.isZero = false) (h : x.toRat = y.toRat) :
    x = y := by
  have hunits : x.units ≠ 0 := by
    rw [Ne, units_eq_zero_iff, hzero]
    exact Bool.false_ne_true
  have hvalue : x.value = y.value := by
    rw [toRat_eq_div, toRat_eq_div, div_left_inj' (by positivity)] at h
    exact_mod_cast h
  rw [value, value] at hvalue
  cases hx : x.negative <;> cases hy : y.negative <;>
    simp only [hx, hy, if_true, Bool.false_eq_true, if_false] at hvalue
  · exact eq_of_units (hx.trans hy.symm) (by omega)
  · omega
  · omega
  · exact eq_of_units (hx.trans hy.symm) (by omega)

/-- A quotient is rounded to any number that is nearest to it, zeros apart. -/
theorem IsNearest.ofRatio_eq (hfraction : 0 < F.fractionBits) {negative : Bool} {n d : Nat}
    (hd : 0 < d) {x : Binary F} (hzero : x.isZero = false)
    (h : IsNearest (withSign negative (n / d)) x) : ofRatio F negative n d = x :=
  (eq_of_toRat hzero (h.toRat_eq (isNearest_ofRatio hfraction negative n hd))).symm

/-! ## Integers -/

/-- The magnitude of a number that is an integer. -/
theorem units_of_toRat_eq {x : Binary F} {n : Int} (h : x.toRat = n) :
    x.units = n.natAbs * 2 ^ F.unitScale := by
  have hpos : (0 : ℚ) < 2 ^ F.unitScale := by positivity
  have habs := x.abs_toRat
  rw [h, eq_div_iff hpos.ne', ← Int.cast_abs, ← Int.natCast_natAbs] at habs
  exact_mod_cast habs.symm

/-- An integer of few bits is kept. At the power of two behind the significands only a zero is
dropped. -/
theorem toRat_ofInt {n : Int} (hn : n.natAbs ≤ 2 * 2 ^ F.fractionBits)
    (hroom : (F.unitScale + 4) * 2 ^ F.fractionBits < F.infinity) :
    (ofInt F n).isFinite = true ∧ (ofInt F n).toRat = n := by
  have hfinite : (ofInt F n).isFinite = true := by
    refine isFinite_ofRatio _ (F.unitScale + 2) Nat.one_pos ?_ hroom
    calc n.natAbs * 2 ^ F.unitScale ≤ 2 * 2 ^ F.fractionBits * 2 ^ F.unitScale :=
          Nat.mul_le_mul_right _ hn
      _ < 4 * (2 ^ F.fractionBits * 2 ^ F.unitScale) := by
          have : 0 < 2 ^ F.fractionBits * 2 ^ F.unitScale := by positivity
          linarith
      _ = 2 ^ (F.fractionBits + (F.unitScale + 2)) * 1 := by ring
  have hunits : (ofInt F n).units = n.natAbs * 2 ^ F.unitScale := by
    rcases hn.lt_or_eq with hlt | heq
    · exact units_ofRatio_of_fits _ Nat.one_pos (Nat.mul_one _).symm hlt hfinite
    · have hsplit : n.natAbs * 2 ^ F.unitScale = 2 ^ F.fractionBits * 2 ^ (F.unitScale + 1) := by
        rw [heq]
        ring
      have hlt : 2 ^ F.fractionBits < 2 * 2 ^ F.fractionBits := by
        have : 0 < 2 ^ F.fractionBits := Nat.two_pow_pos _
        omega
      rw [hsplit]
      exact units_ofRatio_of_fits _ Nat.one_pos (hsplit.trans (Nat.mul_one _).symm) hlt hfinite
  refine ⟨hfinite, ?_⟩
  have hvalue : (ofInt F n).value = n * 2 ^ F.unitScale := by
    have hsign : (ofInt F n).negative = decide (n < 0) := rfl
    rw [value, hunits, hsign]
    rcases lt_or_ge n 0 with hneg | hpos
    · rw [if_pos (decide_eq_true hneg)]
      push_cast
      rw [abs_of_neg hneg]
      ring
    · rw [if_neg (by simpa using hpos)]
      push_cast
      rw [abs_of_nonneg hpos]
  rw [toRat_eq_div, hvalue]
  push_cast
  field_simp

end Binary

end CellularShader
