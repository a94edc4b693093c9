/- # Rounding keeps the order

Of two quotients the smaller one is not rounded to a larger number. So the number depends on the
quotient alone and not on how it is written as a fraction, and a bound on a quotient is a bound on
the number that it is rounded to.
-/

import CellularShader.Proofs.Binary.Rounding
import Mathlib.Algebra.Order.Field.Basic
import Mathlib.Data.Rat.Cast.Order
import Mathlib.Tactic.FieldSimp

namespace CellularShader

theorem div_le_div_of_mul_le {n d m e : Nat} (hd : 0 < d) (he : 0 < e) (h : n * e ≤ m * d) :
    n / d ≤ m / e := by
  rw [Nat.le_div_iff_mul_le he]
  refine Nat.le_of_mul_le_mul_right ?_ hd
  calc n / d * e * d = n / d * d * e := by ring
    _ ≤ n * e := Nat.mul_le_mul_right e (Nat.div_mul_le_self n d)
    _ ≤ m * d := h

theorem divNearest_mono {n d m e : Nat} (hd : 0 < d) (he : 0 < e) (h : n * e ≤ m * d) :
    divNearest n d ≤ divNearest m e := by
  rcases (div_le_div_of_mul_le hd he h).lt_or_eq with hlt | heq
  · have hle := divNearest_le hd (Nat.lt_mul_of_div_lt (Nat.lt_succ_self (n / d)) hd)
    have hge := le_divNearest he (Nat.div_mul_le_self m e)
    omega
  · -- The same whole part: the remainders are in the same order, relative to the divisors.
    have hremainders : n % d * e ≤ m % e * d := by
      have hn : (n / d * d + n % d) * e = n * e := by rw [Nat.div_add_mod']
      have hm : (m / e * e + m % e) * d = m * d := by rw [Nat.div_add_mod']
      rw [Nat.add_mul] at hn hm
      have : n / d * d * e = m / e * e * d := by rw [heq]; ring
      omega
    simp only [divNearest, heq]
    split_ifs with hn hm
    · exact le_rfl
    · exact Nat.le_succ _
    · exfalso
      have hdouble : 2 * (m % e) * d ≤ e * d := Nat.mul_le_mul_right d (by omega)
      have hle : 2 * (n % d) ≤ d := by
        refine Nat.le_of_mul_le_mul_right ?_ he
        calc 2 * (n % d) * e = 2 * (n % d * e) := Nat.mul_assoc ..
          _ ≤ 2 * (m % e) * d := by rw [Nat.mul_assoc]; exact Nat.mul_le_mul_left 2 hremainders
          _ ≤ d * e := by rwa [Nat.mul_comm d e]
      -- Only a tie is left, and then both are ties with the same whole part.
      have htie : 2 * (n % d) = d := by omega
      have htie' : 2 * (m % e) = e := by
        by_contra hne
        have hlt : 2 * (m % e) * d < e * d := Nat.mul_lt_mul_of_pos_right (by omega) hd
        have : d * e ≤ 2 * (m % e) * d :=
          calc d * e = 2 * (n % d * e) := by rw [← Nat.mul_assoc, htie]
            _ ≤ 2 * (m % e) * d := by rw [Nat.mul_assoc]; exact Nat.mul_le_mul_left 2 hremainders
        rw [Nat.mul_comm d e] at this
        omega
      omega
    · exact le_rfl

namespace Binary

variable {F : Format}

/-- The order of quotients carries over to the patterns that they are rounded to. -/
theorem nearestPattern_mono {n d m e : Nat} (hd : 0 < d) (he : 0 < e)
    (h : (n : ℚ) / d ≤ m / e) : nearestPattern F n d ≤ nearestPattern F m e := by
  have hcross : n * e ≤ m * d := by
    rw [div_le_div_iff₀ (by exact_mod_cast hd) (by exact_mod_cast he)] at h
    exact_mod_cast h
  have hscaled : n * 2 ^ F.unitScale * e ≤ m * 2 ^ F.unitScale * d :=
    calc n * 2 ^ F.unitScale * e = n * e * 2 ^ F.unitScale := by ring
      _ ≤ m * d * 2 ^ F.unitScale := Nat.mul_le_mul_right _ hcross
      _ = m * 2 ^ F.unitScale * d := by ring
  simp only [nearestPattern, Nat.pow_eq]
  generalize n * 2 ^ F.unitScale = n at hscaled
  generalize m * 2 ^ F.unitScale = m at hscaled
  have hdropped : (n / d).log2 ≤ (m / e).log2 := by
    have hquotients := div_le_div_of_mul_le hd he hscaled
    rcases Nat.eq_zero_or_pos (n / d) with hzero | hpos
    · simp [hzero]
    · exact (Nat.le_log2 (by omega)).2 ((Nat.log2_self_le hpos.ne').trans hquotients)
  have hhigh := lt_significands F.fractionBits n hd
  have hlow := significands_le F.fractionBits m he
  generalize hk : (n / d).log2 - F.fractionBits = k at hhigh
  generalize hl : (m / e).log2 - F.fractionBits = l at hlow
  refine min_le_min le_rfl ?_
  rcases (show k ≤ l by omega).lt_or_eq with hlt | rfl
  · -- Where more bits are dropped the exponent field is larger, even after a carry in the other.
    have hn : divNearest n (d * 2 ^ k) ≤ 2 * 2 ^ F.fractionBits :=
      divNearest_le (Nat.mul_pos hd (Nat.two_pow_pos _)) hhigh
    have hm : 2 ^ F.fractionBits ≤ divNearest m (e * 2 ^ l) :=
      le_divNearest (Nat.mul_pos he (Nat.two_pow_pos _)) (hlow.resolve_left (by omega))
    have hstep : (k + 1) * 2 ^ F.fractionBits ≤ l * 2 ^ F.fractionBits :=
      Nat.mul_le_mul_right _ hlt
    rw [Nat.add_mul] at hstep
    omega
  · refine Nat.add_le_add_left (divNearest_mono (Nat.mul_pos hd (Nat.two_pow_pos _))
      (Nat.mul_pos he (Nat.two_pow_pos _)) ?_) _
    calc n * (e * 2 ^ k) = n * e * 2 ^ k := by ring
      _ ≤ m * d * 2 ^ k := Nat.mul_le_mul_right _ hscaled
      _ = m * (d * 2 ^ k) := by ring

/-- A quotient is rounded to the same number however it is written. -/
theorem ofRatio_congr (negative : Bool) {n d m e : Nat} (hd : 0 < d) (he : 0 < e)
    (h : (n : ℚ) / d = m / e) : ofRatio F negative n d = ofRatio F negative m e := by
  simp only [ofRatio, mk.injEq, Fin.mk.injEq, true_and]
  exact Nat.le_antisymm (nearestPattern_mono hd he h.le) (nearestPattern_mono he hd h.ge)

theorem isFinite_ofRatio_of_le {negative other : Bool} {n d m e : Nat} (hd : 0 < d) (he : 0 < e)
    (h : (n : ℚ) / d ≤ m / e) (hfinite : (ofRatio F other m e).isFinite = true) :
    (ofRatio F negative n d).isFinite = true :=
  isFinite_iff.2 (lt_of_le_of_lt (nearestPattern_mono hd he h) (isFinite_iff.1 hfinite))

/-- The order of patterns is that of the magnitudes. -/
theorem units_lt_of_pattern_lt {x y : Binary F} (h : x.pattern.val < y.pattern.val) :
    x.units < y.units := by
  obtain ⟨k, q, hx, hxunits, hq, hxlow⟩ := x.exists_significand
  obtain ⟨l, r, hy, hyunits, hr, hylow⟩ := y.exists_significand
  rw [hx, hy] at h
  rw [hxunits, hyunits]
  rcases Nat.lt_trichotomy k l with hlt | rfl | hgt
  · calc q * 2 ^ k < 2 * 2 ^ F.fractionBits * 2 ^ k :=
          Nat.mul_lt_mul_of_pos_right hq (Nat.two_pow_pos _)
      _ = 2 ^ F.fractionBits * 2 ^ (k + 1) := by ring
      _ ≤ 2 ^ F.fractionBits * 2 ^ l :=
        Nat.mul_le_mul_left _ (Nat.pow_le_pow_right Nat.two_pos hlt)
      _ ≤ r * 2 ^ l := Nat.mul_le_mul_right _ (hylow.resolve_left (by omega))
  · exact Nat.mul_lt_mul_of_pos_right (Nat.lt_of_add_lt_add_left h) (Nat.two_pow_pos _)
  · -- A larger exponent comes with a larger pattern.
    have hbig := hxlow.resolve_left (by omega)
    have hstep : (l + 1) * 2 ^ F.fractionBits ≤ k * 2 ^ F.fractionBits :=
      Nat.mul_le_mul_right _ hgt
    rw [Nat.add_mul] at hstep
    omega

theorem units_le_of_pattern_le {x y : Binary F} (h : x.pattern.val ≤ y.pattern.val) :
    x.units ≤ y.units := by
  rcases h.lt_or_eq with hlt | heq
  · exact (units_lt_of_pattern_lt hlt).le
  · rw [units, units, heq]

theorem pattern_lt_of_units_lt {x y : Binary F} (h : x.units < y.units) :
    x.pattern.val < y.pattern.val := by
  by_contra hle
  have := units_le_of_pattern_le (not_lt.1 hle)
  omega

/-- A number is determined by its sign and its magnitude. -/
theorem eq_of_units {x y : Binary F} (hsign : x.negative = y.negative)
    (hunits : x.units = y.units) : x = y := by
  obtain ⟨negative, pattern⟩ := x
  obtain ⟨negative', pattern'⟩ := y
  refine congrArg₂ mk hsign (Fin.ext ?_)
  rcases Nat.lt_trichotomy pattern.val pattern'.val with hlt | heq | hgt
  · exact absurd hunits (units_lt_of_pattern_lt hlt).ne
  · exact heq
  · exact absurd hunits (units_lt_of_pattern_lt hgt).ne'

theorem units_eq_zero_iff {x : Binary F} : x.units = 0 ↔ x.isZero = true := by
  constructor
  · intro hunits
    obtain ⟨dropped, q, hpattern, hvalue, -, hlow⟩ := x.exists_significand
    -- Without a significand there is nothing that could have been shifted.
    have hq : q = 0 := by
      rw [hunits] at hvalue
      rcases Nat.mul_eq_zero.1 hvalue.symm with h | h
      · exact h
      · exact absurd h (Nat.two_pow_pos _).ne'
    have hdropped : dropped = 0 := hlow.resolve_right (by simp [hq])
    simpa [isZero, hq, hdropped] using hpattern
  · intro hzero
    have hpattern : x.pattern.val = 0 := by simpa [isZero] using hzero
    simp [units, hpattern]

theorem units_ofRatio_mono {negative other : Bool} {n d m e : Nat} (hd : 0 < d) (he : 0 < e)
    (h : (n : ℚ) / d ≤ m / e) : (ofRatio F negative n d).units ≤ (ofRatio F other m e).units :=
  units_le_of_pattern_le (nearestPattern_mono hd he h)

theorem units_ofInt_mono {n m : Nat} (h : n ≤ m) :
    (ofInt F (n : Int)).units ≤ (ofInt F (m : Int)).units := by
  refine units_ofRatio_mono Nat.one_pos Nat.one_pos ?_
  rw [Int.natAbs_natCast, Int.natAbs_natCast]
  gcongr

/-- Factors that are no larger have a finite product if larger ones have. -/
theorem isFinite_mul_of_le {x y x' y' : Binary F} (hx : x.units ≤ x'.units)
    (hy : y.units ≤ y'.units) (h : (x'.mul y').isFinite = true) : (x.mul y).isFinite = true := by
  have hproduct : x.units * y.units ≤ x'.units * y'.units := Nat.mul_le_mul hx hy
  refine isFinite_ofRatio_of_le (Nat.two_pow_pos _) (Nat.two_pow_pos _) ?_ h
  exact div_le_div_of_nonneg_right (by exact_mod_cast hproduct) (Nat.cast_nonneg _)

/-! ## Whole numbers -/

/-- Two whole numbers are multiplied with a single rounding. -/
theorem mul_of_whole {x y : Binary F} {n m : Nat} (hx : x.units = n * 2 ^ F.unitScale)
    (hy : y.units = m * 2 ^ F.unitScale) :
    x.mul y = ofRatio F (x.negative != y.negative) (n * m) 1 := by
  refine ofRatio_congr _ (Nat.two_pow_pos _) Nat.one_pos ?_
  rw [hx, hy, Nat.pow_eq, two_mul, pow_add]
  push_cast
  field_simp

/-- Two whole numbers are divided with a single rounding. -/
theorem div_of_whole {x y : Binary F} {n m : Nat} (hx : x.units = n * 2 ^ F.unitScale)
    (hy : y.units = m * 2 ^ F.unitScale) (hm : 0 < m) :
    x.div y = ofRatio F (x.negative != y.negative) n m := by
  refine ofRatio_congr _ ?_ hm ?_
  · rw [hy]
    exact Nat.mul_pos hm (Nat.two_pow_pos _)
  · rw [hx, hy]
    push_cast
    exact mul_div_mul_right _ _ (by positivity)

end Binary

end CellularShader
