/- # How many digits the shortest decimal has

A grid that is four times as fine as the steps between floats has a point just above every float
that reads back. The search for the shortest decimal therefore goes no further down than to the
first such grid, and the coefficient it ends with is little larger than the significand.
-/

import CellularShader.Proofs.Decimal.Order

namespace CellularShader

namespace Decimal

theorem scaleUp_div_scaleDown (exponent : Int) :
    (scaleUp exponent : ℚ) / scaleDown exponent = 10 ^ exponent := by
  have h := toRat_eq_div ⟨1, exponent⟩
  simpa [toRat] using h.symm

variable {F : Format} {x : Binary F} {dropped q : Nat} {tie : Tie} {exponent : Int}

/-! ## Grids -/

/-- A grid with four points for every step between floats has one that reads back. -/
theorem isSome_onGrid? (hx : x.isFinite = true) (h : x.HasSignificand dropped q) (tie : Tie)
    (hfine : 4 * (2 ^ F.unitScale * (10 : ℚ) ^ exponent) ≤ 2 ^ dropped) :
    (onGrid? tie x exponent).isSome := by
  have hdown := scaleDown_pos exponent
  have hwidth : 4 * (2 ^ F.unitScale * scaleUp exponent) ≤ scaleDown exponent * 2 ^ dropped := by
    have hpos : (0 : ℚ) < scaleDown exponent := by exact_mod_cast hdown
    rw [← scaleUp_div_scaleDown, ← mul_div_assoc, ← mul_div_assoc, div_le_iff₀ hpos] at hfine
    rw [Nat.mul_comm (scaleDown exponent)]
    exact_mod_cast hfine
  have habove : readsAs x ⟨x.units * scaleDown exponent / (2 ^ F.unitScale * scaleUp exponent) + 1,
      exponent⟩ = true := by
    rw [readsAs, toBinary, beq_iff_eq]
    have hpos : 0 < 2 ^ F.unitScale * scaleUp exponent :=
      Nat.mul_pos (Nat.two_pow_pos _) (Nat.pow_pos (by decide))
    have hscaled (c : Nat) : c * scaleUp exponent * 2 ^ F.unitScale =
        c * (2 ^ F.unitScale * scaleUp exponent) := by ring
    have hvalue : q * (scaleDown exponent * 2 ^ dropped) = x.units * scaleDown exponent := by
      rw [h.units_eq]
      ring
    have hsplit := Nat.div_add_mod' (x.units * scaleDown exponent)
      (2 ^ F.unitScale * scaleUp exponent)
    have hmod := Nat.mod_lt (x.units * scaleDown exponent) hpos
    change Binary.ofRatio F x.negative (_ * scaleUp exponent) (scaleDown exponent) = x
    refine Binary.ofRatio_eq_of_near hx h hdown ?_ ?_
    · rw [hvalue, hscaled, Nat.add_mul]
      omega
    · rw [hscaled, Nat.add_mul, Nat.add_mul, Nat.mul_assoc 4 q, hvalue]
      omega
  simp only [onGrid?, Nat.pow_eq, habove]
  cases readsAs x ⟨x.units * scaleDown exponent / (2 ^ F.unitScale * scaleUp exponent), exponent⟩
  · rfl
  · rfl

theorem coefficient_of_onGrid? {d : Decimal} (h : onGrid? tie x exponent = some d) :
    d.coefficient ≤ x.units * scaleDown exponent / (2 ^ F.unitScale * scaleUp exponent) + 1 := by
  simp only [onGrid?, Nat.pow_eq] at h
  split at h
  case h_1 => split at h <;> (cases h; simp)
  case h_2 => cases h; simp
  case h_3 => cases h; simp
  case h_4 => cases h

/-! ## The search -/

/-- A number is within so many points of a grid as a bound on the quotient says. -/
theorem units_mul_scaleDown_le {n : Nat}
    (h : (x.units : ℚ) ≤ n * (2 ^ F.unitScale * 10 ^ exponent)) :
    x.units * scaleDown exponent ≤ n * (2 ^ F.unitScale * scaleUp exponent) := by
  have hpos : (0 : ℚ) < scaleDown exponent := by exact_mod_cast scaleDown_pos exponent
  rw [← scaleUp_div_scaleDown, ← mul_div_assoc, ← mul_div_assoc, le_div_iff₀ hpos] at h
  exact_mod_cast h

/-- The grid of the smallest number is so fine that every number is many points away from zero. -/
theorem lt_units_of_last (h : x.HasSignificand dropped q) (hpos : 0 < q)
    (hscale : 3 ≤ F.unitScale) :
    (40 * q : Nat) * (2 ^ F.unitScale * (10 : ℚ) ^ (-(F.unitScale : Int))) < x.units := by
  have hfive : (125 : ℚ) ≤ 5 ^ F.unitScale :=
    calc (125 : ℚ) = 5 ^ 3 := by norm_num
      _ ≤ 5 ^ F.unitScale := pow_le_pow_right₀ (by norm_num) hscale
  have htwo : (1 : ℚ) ≤ 2 ^ dropped := one_le_pow₀ (by norm_num)
  have hq : (0 : ℚ) < q := by exact_mod_cast hpos
  have hgrid : 2 ^ F.unitScale * (10 : ℚ) ^ (-(F.unitScale : Int)) = 1 / 5 ^ F.unitScale := by
    rw [zpow_neg, zpow_natCast, show (10 : ℚ) = 2 * 5 by norm_num, mul_pow]
    field_simp
  rw [hgrid, mul_one_div, div_lt_iff₀ (by positivity), h.units_eq]
  push_cast
  calc (40 * q : ℚ) < q * 1 * 125 := by linarith
    _ ≤ q * 2 ^ dropped * 5 ^ F.unitScale := by gcongr

/-- No grid is passed over that is so fine that one of its points has to be taken. -/
theorem coefficient_searchGrids_le (hx : x.isFinite = true) (h : x.HasSignificand dropped q)
    (hpos : 0 < q) (hscale : 3 ≤ F.unitScale) (tie : Tie) {tries : Nat}
    (htries : exponent = tries - F.unitScale)
    (hcoarse : (x.units : ℚ) ≤ (40 * q : Nat) * (2 ^ F.unitScale * 10 ^ exponent)) :
    (searchGrids tie x tries exponent).coefficient ≤ 40 * q + 1 := by
  induction tries generalizing exponent with
  | zero =>
    have hexponent : exponent = -(F.unitScale : Int) := by omega
    rw [hexponent] at hcoarse
    exact absurd hcoarse (lt_units_of_last h hpos hscale).not_ge
  | succ tries ih =>
    rw [searchGrids]
    split
    case h_1 d hgrid =>
      refine (coefficient_of_onGrid? hgrid).trans (Nat.succ_le_succ ?_)
      refine Nat.div_le_of_le_mul ?_
      rw [Nat.mul_comm _ (40 * q)]
      exact units_mul_scaleDown_le hcoarse
    case h_2 hgrid =>
      -- A grid without a point to take is coarser than a quarter of a step.
      have hstep : (2 : ℚ) ^ dropped < 4 * (2 ^ F.unitScale * 10 ^ exponent) := by
        by_contra hfine
        have hsome := isSome_onGrid? hx h tie (not_lt.1 hfine)
        rw [hgrid] at hsome
        cases hsome
      refine ih (by omega) ?_
      rw [h.units_eq, zpow_sub_one₀ (by norm_num)]
      push_cast
      calc (q : ℚ) * 2 ^ dropped ≤ q * (4 * (2 ^ F.unitScale * 10 ^ exponent)) := by gcongr
        _ = 40 * q * (2 ^ F.unitScale * (10 ^ exponent * 10⁻¹)) := by ring

theorem ten_pow_le_two_pow {m n : Nat} (h : 10 * m ≤ 3 * n) : 10 ^ m ≤ 2 ^ n := by
  refine (Nat.pow_le_pow_iff_left (by decide : 10 ≠ 0)).1 ?_
  calc (10 ^ m) ^ 10 = 10 ^ (10 * m) := by rw [← pow_mul, Nat.mul_comm]
    _ ≤ 10 ^ (3 * n) := Nat.pow_le_pow_right (by decide) h
    _ = 1000 ^ n := pow_mul 10 3 n
    _ ≤ 1024 ^ n := Nat.pow_le_pow_left (by decide) n
    _ = (2 ^ n) ^ 10 := by rw [← pow_mul, Nat.mul_comm, pow_mul 2 10]; rfl

/-- The first grid of the search is coarser than the number. -/
theorem two_zpow_le_coarse (bound : Int) : (2 : ℚ) ^ bound ≤ 10 ^ coarseExponent bound := by
  rw [coarseExponent]
  split_ifs with h
  · obtain ⟨n, rfl⟩ := Int.eq_ofNat_of_zero_le h
    have hexponent : (n : Int) / 3 + 1 = (n / 3 + 1 : Nat) := by omega
    rw [hexponent, zpow_natCast, zpow_natCast]
    have hnat : 2 ^ n ≤ 10 ^ (n / 3 + 1) :=
      calc 2 ^ n ≤ 2 ^ (3 * (n / 3 + 1)) := Nat.pow_le_pow_right (by decide) (by omega)
        _ = 8 ^ (n / 3 + 1) := pow_mul 2 3 _
        _ ≤ 10 ^ (n / 3 + 1) := Nat.pow_le_pow_left (by decide) _
    exact_mod_cast hnat
  · obtain ⟨n, rfl⟩ : ∃ n : Nat, bound = -n := ⟨bound.natAbs, by omega⟩
    obtain ⟨m, hm⟩ : ∃ m : Nat, -(n : Int) * 3 / 10 + 1 = -m :=
      ⟨(-(-(n : Int) * 3 / 10 + 1)).toNat, by omega⟩
    rw [hm, zpow_neg, zpow_neg, zpow_natCast, zpow_natCast]
    refine inv_anti₀ (by positivity) ?_
    exact_mod_cast ten_pow_le_two_pow (m := m) (n := n) (by omega)

/-- The exponent that the search starts from is among those that are tried. -/
theorem start_ge (x : Binary F) :
    -(F.unitScale : Int) ≤ coarseExponent (x.units.log2 + 1 - F.unitScale) := by
  rw [coarseExponent]
  split_ifs <;> omega

/-- A number lies below the first point of the grid that the search starts from. -/
theorem units_lt_start (x : Binary F) : (x.units : ℚ) <
    2 ^ F.unitScale * 10 ^ coarseExponent (x.units.log2 + 1 - F.unitScale) := by
  calc (x.units : ℚ) < 2 ^ (x.units.log2 + 1) := by exact_mod_cast Nat.lt_log2_self
    _ = 2 ^ F.unitScale * 2 ^ ((x.units.log2 + 1 : Int) - F.unitScale) := by
      rw [zpow_sub₀ (by norm_num), zpow_natCast]
      field_simp
      norm_cast
    _ ≤ 2 ^ F.unitScale * 10 ^ coarseExponent (x.units.log2 + 1 - F.unitScale) := by
      gcongr
      exact two_zpow_le_coarse _

theorem coefficient_shortest_le (hx : x.isFinite = true) (hzero : x.isZero = false)
    (hscale : 3 ≤ F.unitScale) (tie : Tie) :
    (shortest tie x).coefficient ≤ 80 * 2 ^ F.fractionBits := by
  obtain ⟨dropped, q, h⟩ := x.exists_significand
  have hpos : 0 < q := by
    refine Nat.pos_of_ne_zero ?_
    rintro rfl
    have hunits := h.units_eq
    rw [Nat.zero_mul, Binary.units_eq_zero_iff, hzero] at hunits
    cases hunits
  have hlt := h.lt
  refine (coefficient_searchGrids_le hx h hpos hscale tie ?_ ?_).trans (by omega)
  · have := start_ge x
    omega
  · have hcount : (1 : ℚ) ≤ (40 * q : Nat) := by exact_mod_cast (by omega : 1 ≤ 40 * q)
    exact (units_lt_start x).le.trans (le_mul_of_one_le_left (by positivity) hcount)

theorem exponent_searchGrids_ge (tie : Tie) {tries : Nat}
    (htries : exponent = tries - F.unitScale) :
    -(F.unitScale : Int) ≤ (searchGrids tie x tries exponent).exponent := by
  induction tries generalizing exponent with
  | zero => exact le_rfl
  | succ tries ih =>
    rw [searchGrids]
    split
    case h_1 d hgrid =>
      rw [exponent_of_onGrid? hgrid]
      omega
    case h_2 => exact ih (by omega)

theorem exponent_shortest_ge (x : Binary F) (tie : Tie) :
    -(F.unitScale : Int) ≤ (shortest tie x).exponent := by
  refine exponent_searchGrids_ge tie ?_
  have := start_ge x
  omega

end Decimal

end CellularShader
