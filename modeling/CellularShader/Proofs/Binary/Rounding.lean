/- # Rounding keeps what can be represented

The fields of a pattern and the magnitude they stand for determine each other. A quotient that is a
magnitude of the format is therefore rounded to the pattern of that magnitude, and the magnitude of
any other rounded quotient lies within half a step of the quotient.
-/

import CellularShader.Binary.Rounding
import Mathlib.Tactic.Linarith
import Mathlib.Tactic.Ring

namespace CellularShader

/-! ## Division to the nearest -/

theorem divNearest_mul_right (q : Nat) {d : Nat} (hd : 0 < d) : divNearest (q * d) d = q := by
  simp [divNearest, Nat.mul_div_cancel _ hd, hd]

/-- A quotient that is at most a quarter above a natural number is rounded to it. -/
theorem divNearest_of_near {n d q : Nat} (hd : 0 < d) (hlow : q * d ≤ n)
    (hhigh : 4 * n ≤ (4 * q + 1) * d) : divNearest n d = q := by
  rw [Nat.add_mul, Nat.one_mul, Nat.mul_assoc] at hhigh
  have hquotient : n / d = q := Nat.div_eq_of_lt_le hlow (by rw [Nat.add_mul]; omega)
  have hsplit := Nat.div_add_mod' n d
  rw [hquotient] at hsplit
  rw [divNearest, hquotient, if_pos (Or.inl (by omega))]

/-- The nearest multiple of the divisor is at most half a divisor away. -/
theorem divNearest_error (n : Nat) {d : Nat} (hd : 0 < d) :
    2 * n ≤ 2 * (divNearest n d * d) + d ∧ 2 * (divNearest n d * d) ≤ 2 * n + d := by
  have hsplit := Nat.div_add_mod' n d
  have hmod := Nat.mod_lt n hd
  simp only [divNearest]
  split
  · omega
  · rw [Nat.add_mul]
    omega

theorem divNearest_le {n d b : Nat} (hd : 0 < d) (h : n < b * d) : divNearest n d ≤ b := by
  have hq : n / d < b := (Nat.div_lt_iff_lt_mul hd).2 h
  simp only [divNearest]
  split <;> omega

theorem le_divNearest {n d b : Nat} (hd : 0 < d) (h : b * d ≤ n) : b ≤ divNearest n d := by
  have hq : b ≤ n / d := (Nat.le_div_iff_mul_le hd).2 h
  simp only [divNearest]
  split <;> omega

namespace Binary

variable {F : Format}

/-! ## Fields and magnitudes -/

theorem isFinite_iff {x : Binary F} : x.isFinite = true ↔ x.pattern.val < F.infinity := by
  simp [isFinite]

theorem isNaN_of_isFinite {x : Binary F} (hx : x.isFinite = true) : x.isNaN = false := by
  rw [isFinite_iff] at hx
  simp only [isNaN, decide_eq_false_iff_not]
  omega

theorem equals_self {x : Binary F} (hx : x.isFinite = true) : x.equals x = true := by
  simp [equals, isNaN_of_isFinite hx]

theorem equals_iff {x y : Binary F} :
    x.equals y = true ↔ x.isNaN = false ∧ y.isNaN = false ∧ x.value = y.value := by
  simp only [equals, Bool.and_eq_true, Bool.not_eq_true', beq_iff_eq, and_assoc]

theorem equals_of_equals {x y z : Binary F} (hx : x.equals z = true) (hy : y.equals z = true) :
    x.equals y = true := by
  rw [equals_iff] at hx hy ⊢
  exact ⟨hx.1, hy.1, hx.2.2.trans hy.2.2.symm⟩

theorem isPositive_of_equals {x y : Binary F} (h : x.equals y = true) :
    x.isPositive = y.isPositive := by
  obtain ⟨hx, hy, hvalue⟩ := equals_iff.1 h
  rw [isPositive, isPositive, hx, hy, hvalue]

/-- The magnitude of a pattern with the given exponent and fraction fields. -/
def magnitudeOf (F : Format) (exponent fraction : Nat) : Nat :=
  if exponent = 0 then fraction else (2 ^ F.fractionBits + fraction) * 2 ^ (exponent - 1)

theorem units_of_fields {x : Binary F} {exponent fraction : Nat}
    (hx : x.pattern.val = exponent * 2 ^ F.fractionBits + fraction)
    (hfraction : fraction < 2 ^ F.fractionBits) : x.units = magnitudeOf F exponent fraction := by
  have hdiv : x.pattern.val / 2 ^ F.fractionBits = exponent := by
    rw [hx, Nat.mul_comm, Nat.mul_add_div (Nat.two_pow_pos _), Nat.div_eq_of_lt hfraction,
      Nat.add_zero]
  have hmod : x.pattern.val % 2 ^ F.fractionBits = fraction := by
    rw [hx, Nat.mul_add_mod', Nat.mod_eq_of_lt hfraction]
  simp only [units, magnitudeOf, Nat.pow_eq, hdiv, hmod]

/-- A carry out of the fraction moves into the exponent without a change of magnitude. -/
theorem units_of_significand {x : Binary F} {dropped q : Nat}
    (hx : x.pattern.val = dropped * 2 ^ F.fractionBits + q)
    (hlow : dropped = 0 ∨ 2 ^ F.fractionBits ≤ q) (hhigh : q ≤ 2 * 2 ^ F.fractionBits) :
    x.units = q * 2 ^ dropped := by
  have hpos : 0 < 2 ^ F.fractionBits := Nat.two_pow_pos _
  -- Subnormal, normal, or a significand that rounding has carried to the next power of two.
  rcases Nat.lt_or_ge q (2 ^ F.fractionBits) with hsmall | hbig
  · obtain rfl : dropped = 0 := by omega
    rw [units_of_fields hx hsmall]
    simp [magnitudeOf]
  · rcases Nat.lt_or_ge q (2 * 2 ^ F.fractionBits) with hfit | hcarry
    · have hfields : x.pattern.val = (dropped + 1) * 2 ^ F.fractionBits +
          (q - 2 ^ F.fractionBits) := by
        rw [hx, Nat.add_mul]
        omega
      rw [units_of_fields hfields (by omega), magnitudeOf, if_neg (by omega),
        Nat.add_sub_cancel, Nat.add_sub_cancel' hbig]
    · obtain rfl : q = 2 * 2 ^ F.fractionBits := by omega
      have hfields : x.pattern.val = (dropped + 2) * 2 ^ F.fractionBits + 0 := by
        rw [hx, Nat.add_mul, Nat.add_zero]
      rw [units_of_fields hfields hpos, magnitudeOf, if_neg (by omega)]
      simp only [Nat.add_zero, show dropped + 2 - 1 = dropped + 1 by omega]
      ring

/-- A magnitude taken apart into a significand and the bits below it, which stand for nothing. -/
structure HasSignificand (x : Binary F) (dropped q : Nat) : Prop where
  pattern_eq : x.pattern.val = dropped * 2 ^ F.fractionBits + q
  units_eq : x.units = q * 2 ^ dropped
  lt : q < 2 * 2 ^ F.fractionBits
  full : dropped = 0 ∨ 2 ^ F.fractionBits ≤ q

theorem exists_significand (x : Binary F) : ∃ dropped q, x.HasSignificand dropped q := by
  have hpos : 0 < 2 ^ F.fractionBits := Nat.two_pow_pos _
  have hfields := Nat.div_add_mod' x.pattern.val (2 ^ F.fractionBits)
  have hfraction := Nat.mod_lt x.pattern.val hpos
  -- An exponent field of zero and one of one drop the same number of bits.
  cases hexponent : x.pattern.val / 2 ^ F.fractionBits with
  | zero =>
    rw [hexponent] at hfields
    refine ⟨0, x.pattern.val % 2 ^ F.fractionBits, hfields.symm, ?_, by omega, Or.inl rfl⟩
    rw [units_of_fields hfields.symm hfraction]
    simp [magnitudeOf]
  | succ e =>
    rw [hexponent] at hfields
    refine ⟨e, 2 ^ F.fractionBits + x.pattern.val % 2 ^ F.fractionBits, ?_, ?_, by omega,
      Or.inr (Nat.le_add_right _ _)⟩
    · rw [Nat.add_mul] at hfields
      omega
    · rw [units_of_fields hfields.symm hfraction]
      simp [magnitudeOf]

/-! ## Rounded quotients -/

/-- The bits below the significand are counted by the logarithm, whatever they are. -/
theorem log2_significand {m q dropped fractionBits : Nat} (hm : q * 2 ^ dropped ≤ m)
    (hm' : m < (q + 1) * 2 ^ dropped) (hq : q < 2 * 2 ^ fractionBits)
    (hlow : dropped = 0 ∨ 2 ^ fractionBits ≤ q) : m.log2 - fractionBits = dropped := by
  have hupper : m < 2 ^ (fractionBits + 1 + dropped) := by
    rw [pow_add, pow_succ]
    exact hm'.trans_le (Nat.mul_le_mul_right _ (by omega))
  rcases Nat.eq_zero_or_pos m with rfl | hpos
  · have hzero : q = 0 := (Nat.mul_eq_zero.1 (Nat.le_zero.1 hm)).resolve_right (by positivity)
    have := hlow.resolve_right (by simp [hzero])
    simp [this]
  · have hlog := (Nat.log2_lt hpos.ne').2 hupper
    rcases hlow with rfl | hbig
    · omega
    · have hlower : fractionBits + dropped ≤ m.log2 := by
        rw [Nat.le_log2 hpos.ne', pow_add]
        exact (Nat.mul_le_mul_right _ hbig).trans hm
      omega

/-- A quotient that lies at most a quarter of a step above a finite number is rounded to it. -/
theorem ofRatio_eq_of_near {x : Binary F} (hx : x.isFinite = true) {dropped q : Nat}
    (h : x.HasSignificand dropped q) {n d : Nat} (hd : 0 < d)
    (hn : q * (d * 2 ^ dropped) ≤ n * 2 ^ F.unitScale)
    (hn' : 4 * (n * 2 ^ F.unitScale) ≤ (4 * q + 1) * (d * 2 ^ dropped)) :
    ofRatio F x.negative n d = x := by
  have hwidth : 0 < d * 2 ^ dropped := Nat.mul_pos hd (Nat.two_pow_pos _)
  have hquotient : q * 2 ^ dropped ≤ n * 2 ^ F.unitScale / d := by
    rw [Nat.le_div_iff_mul_le hd]
    calc q * 2 ^ dropped * d = q * (d * 2 ^ dropped) := by ring
      _ ≤ n * 2 ^ F.unitScale := hn
  have hquotient' : n * 2 ^ F.unitScale / d < (q + 1) * 2 ^ dropped := by
    rw [Nat.div_lt_iff_lt_mul hd]
    calc n * 2 ^ F.unitScale < (q + 1) * (d * 2 ^ dropped) := by linarith
      _ = (q + 1) * 2 ^ dropped * d := by ring
  have hresult : nearestPattern F n d = x.pattern.val := by
    simp only [nearestPattern, Nat.pow_eq, log2_significand hquotient hquotient' h.lt h.full,
      divNearest_of_near hwidth hn hn']
    rw [← h.pattern_eq]
    exact Nat.min_eq_right (isFinite_iff.1 hx).le
  cases x
  simp only [ofRatio, mk.injEq, true_and]
  exact Fin.ext hresult

/-- A quotient that is the magnitude of a finite number is rounded to that number. -/
theorem ofRatio_eq_of_exact {x : Binary F} (hx : x.isFinite = true) {n d : Nat} (hd : 0 < d)
    (h : n * 2 ^ F.unitScale = x.units * d) : ofRatio F x.negative n d = x := by
  obtain ⟨dropped, q, hq⟩ := x.exists_significand
  have hexact : n * 2 ^ F.unitScale = q * (d * 2 ^ dropped) := by
    rw [h, hq.units_eq]
    ring
  refine ofRatio_eq_of_near hx hq hd hexact.ge ?_
  rw [hexact]
  linarith [Nat.zero_le (d * 2 ^ dropped)]

/-- So many bits are dropped that the rest fits into a significand, up to a carry. -/
theorem lt_significands (fractionBits scaled : Nat) {d : Nat} (hd : 0 < d) :
    scaled < 2 * 2 ^ fractionBits * (d * 2 ^ ((scaled / d).log2 - fractionBits)) := by
  have hlog : scaled / d < 2 ^ ((scaled / d).log2 + 1) := Nat.lt_log2_self
  have hle : 2 ^ ((scaled / d).log2 + 1) ≤
      2 ^ (fractionBits + ((scaled / d).log2 - fractionBits) + 1) :=
    Nat.pow_le_pow_right (by omega) (by omega)
  calc scaled < 2 ^ (fractionBits + ((scaled / d).log2 - fractionBits) + 1) * d :=
        (Nat.div_lt_iff_lt_mul hd).1 (hlog.trans_le hle)
    _ = 2 * 2 ^ fractionBits * (d * 2 ^ ((scaled / d).log2 - fractionBits)) := by ring

/-- Bits are dropped only where the quotient has a leading bit above the significand. -/
theorem significands_le (fractionBits scaled : Nat) {d : Nat} (hd : 0 < d) :
    (scaled / d).log2 - fractionBits = 0 ∨
      2 ^ fractionBits * (d * 2 ^ ((scaled / d).log2 - fractionBits)) ≤ scaled := by
  rcases Nat.eq_zero_or_pos ((scaled / d).log2 - fractionBits) with hzero | hpos
  · exact Or.inl hzero
  · right
    have hne : scaled / d ≠ 0 := by
      rintro h0
      simp [h0] at hpos
    have hlog : 2 ^ (scaled / d).log2 ≤ scaled / d := Nat.log2_self_le hne
    have hsplit : (scaled / d).log2 = fractionBits + ((scaled / d).log2 - fractionBits) := by omega
    rw [hsplit, pow_add] at hlog
    calc 2 ^ fractionBits * (d * 2 ^ ((scaled / d).log2 - fractionBits))
        = 2 ^ fractionBits * 2 ^ ((scaled / d).log2 - fractionBits) * d := by ring
      _ ≤ scaled := (Nat.le_div_iff_mul_le hd).1 hlog

/-- The magnitude of a rounded quotient is the nearest multiple of a power of two. Bits are dropped
only from a quotient that has more of them than the significand. -/
theorem units_ofRatio (negative : Bool) {n d : Nat} (hd : 0 < d)
    (hfinite : (ofRatio F negative n d).isFinite = true) : ∃ dropped,
      (ofRatio F negative n d).units =
        divNearest (n * 2 ^ F.unitScale) (d * 2 ^ dropped) * 2 ^ dropped ∧
      (dropped = 0 ∨ 2 ^ F.fractionBits * 2 ^ dropped * d ≤ n * 2 ^ F.unitScale) := by
  have hlt : nearestPattern F n d < F.infinity := isFinite_iff.1 hfinite
  generalize hscaled : n * 2 ^ F.unitScale = scaled at *
  generalize hdropped : (scaled / d).log2 - F.fractionBits = dropped
  have hpattern : nearestPattern F n d =
      dropped * 2 ^ F.fractionBits + divNearest scaled (d * 2 ^ dropped) := by
    simp only [nearestPattern, Nat.pow_eq, hscaled, hdropped] at hlt ⊢
    omega
  have hwidth : 0 < d * 2 ^ dropped := Nat.mul_pos hd (Nat.two_pow_pos _)
  have hlow : dropped = 0 ∨ 2 ^ F.fractionBits * (d * 2 ^ dropped) ≤ scaled :=
    hdropped ▸ significands_le F.fractionBits scaled hd
  have hhigh : scaled < 2 * 2 ^ F.fractionBits * (d * 2 ^ dropped) :=
    hdropped ▸ lt_significands F.fractionBits scaled hd
  refine ⟨dropped, units_of_significand hpattern ?_ (divNearest_le hwidth hhigh), ?_⟩
  · exact hlow.imp id fun h => le_divNearest hwidth h
  · refine hlow.imp id fun h => ?_
    calc 2 ^ F.fractionBits * 2 ^ dropped * d = 2 ^ F.fractionBits * (d * 2 ^ dropped) := by ring
      _ ≤ scaled := h

/-- A quotient whose exponent is in range is rounded to a finite number. -/
theorem isFinite_ofRatio (negative : Bool) (width : Nat) {n d : Nat} (hd : 0 < d)
    (h : n * 2 ^ F.unitScale < 2 ^ (F.fractionBits + width) * d)
    (hwidth : (width + 2) * 2 ^ F.fractionBits < F.infinity) :
    (ofRatio F negative n d).isFinite = true := by
  generalize hscaled : n * 2 ^ F.unitScale = scaled at h
  generalize hdropped : (scaled / d).log2 - F.fractionBits = dropped
  have hle : dropped ≤ width := by
    rcases Nat.eq_zero_or_pos (scaled / d) with hzero | hpos
    · simp [hzero] at hdropped
      omega
    · have hlog := (Nat.log2_lt hpos.ne').2 ((Nat.div_lt_iff_lt_mul hd).2 h)
      omega
  -- A carry moves the pattern up by one exponent at most.
  have hnearest : divNearest scaled (d * 2 ^ dropped) ≤ 2 * 2 ^ F.fractionBits :=
    divNearest_le (Nat.mul_pos hd (Nat.two_pow_pos _))
      (hdropped ▸ lt_significands F.fractionBits scaled hd)
  have hpattern : dropped * 2 ^ F.fractionBits + divNearest scaled (d * 2 ^ dropped) <
      F.infinity := by
    have := Nat.mul_le_mul_right (2 ^ F.fractionBits) hle
    rw [Nat.add_mul] at hwidth
    omega
  rw [isFinite_iff]
  simp only [ofRatio, nearestPattern, Nat.pow_eq, hscaled, hdropped]
  omega

/-- A quotient whose significant bits fit is kept, wherever they stand. -/
theorem units_ofRatio_of_fits (negative : Bool) {n d q shift : Nat} (hd : 0 < d)
    (h : n * 2 ^ F.unitScale = q * 2 ^ shift * d) (hq : q < 2 * 2 ^ F.fractionBits)
    (hfinite : (ofRatio F negative n d).isFinite = true) :
    (ofRatio F negative n d).units = q * 2 ^ shift := by
  obtain ⟨dropped, hunits, hlow⟩ := units_ofRatio negative hd hfinite
  -- Were more bits dropped than there are zeros, the significand would have too many.
  have hle : dropped ≤ shift := by
    rcases hlow with hzero | hlow
    · omega
    · rw [h] at hlow
      have hlt : 2 ^ F.fractionBits * 2 ^ dropped < 2 ^ F.fractionBits * 2 ^ (shift + 1) :=
        calc 2 ^ F.fractionBits * 2 ^ dropped ≤ q * 2 ^ shift := Nat.le_of_mul_le_mul_right hlow hd
          _ < 2 * 2 ^ F.fractionBits * 2 ^ shift :=
            Nat.mul_lt_mul_of_pos_right hq (Nat.two_pow_pos _)
          _ = 2 ^ F.fractionBits * 2 ^ (shift + 1) := by ring
      have := (Nat.pow_lt_pow_iff_right (by decide : 1 < 2)).1 (Nat.lt_of_mul_lt_mul_left hlt)
      omega
  have hexact : q * 2 ^ shift * d = q * 2 ^ (shift - dropped) * (d * 2 ^ dropped) := by
    rw [← Nat.sub_add_cancel hle, pow_add, Nat.add_sub_cancel]
    ring
  rw [hunits, h, hexact, divNearest_mul_right _ (Nat.mul_pos hd (Nat.two_pow_pos _)),
    Nat.mul_assoc, ← pow_add, Nat.sub_add_cancel hle]

/-- Below the power of two at which single bits are worth more than one, a whole number that is
rounded is the result itself. -/
theorem units_ofRatio_one (negative : Bool) {n : Nat}
    (hfinite : (ofRatio F negative n 1).isFinite = true)
    (hsmall : (ofRatio F negative n 1).units ≤ 2 ^ F.fractionBits * 2 ^ F.unitScale) :
    (ofRatio F negative n 1).units = n * 2 ^ F.unitScale := by
  obtain ⟨dropped, hunits, hlow⟩ := units_ofRatio negative Nat.one_pos hfinite
  rw [Nat.one_mul] at hunits
  have hle : dropped ≤ F.unitScale := by
    rcases hlow with hzero | hlow
    · omega
    · by_contra hgt
      rw [Nat.mul_one] at hlow
      -- If bits worth more than one were dropped, the result would be above the bound.
      have hmany := le_divNearest (Nat.two_pow_pos dropped) hlow
      have hlt : 2 ^ F.fractionBits * 2 ^ F.unitScale < 2 ^ F.fractionBits * 2 ^ dropped :=
        Nat.mul_lt_mul_of_pos_left (Nat.pow_lt_pow_right (by decide) (by omega))
          (Nat.two_pow_pos _)
      have := Nat.mul_le_mul_right (2 ^ dropped) hmany
      omega
  have hexact : n * 2 ^ F.unitScale = n * 2 ^ (F.unitScale - dropped) * 2 ^ dropped := by
    rw [Nat.mul_assoc, ← pow_add, Nat.sub_add_cancel hle]
  rw [hunits, hexact, divNearest_mul_right _ (Nat.two_pow_pos _)]

/-- Rounding a whole number leaves a whole number: either no bit is lost, or the remaining bits are
all worth one or more. -/
theorem isWhole_ofRatio_one (negative : Bool) (n : Nat)
    (hfinite : (ofRatio F negative n 1).isFinite = true) :
    (ofRatio F negative n 1).isWhole = true := by
  obtain ⟨dropped, hunits, -⟩ := units_ofRatio negative Nat.one_pos hfinite
  have hdvd : 2 ^ F.unitScale ∣ (ofRatio F negative n 1).units := by
    rw [hunits, Nat.one_mul]
    -- Either only zeros are dropped, or the unit divides what a remaining bit is worth.
    rcases Nat.le_total dropped F.unitScale with hle | hle
    · have hexact : n * 2 ^ F.unitScale = n * 2 ^ (F.unitScale - dropped) * 2 ^ dropped := by
        rw [Nat.mul_assoc, ← pow_add, Nat.sub_add_cancel hle]
      rw [hexact, divNearest_mul_right _ (Nat.two_pow_pos _), ← hexact]
      exact Nat.dvd_mul_left _ _
    · exact (Nat.pow_dvd_pow 2 hle).mul_left _
  simp only [isWhole, hfinite, Bool.true_and, Nat.pow_eq, beq_iff_eq]
  exact Nat.mod_eq_zero_of_dvd hdvd

end Binary

end CellularShader
