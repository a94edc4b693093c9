/- # The fewest digits

The decimals that are read as a number form an interval around the number. So if any point of a grid
reads back, one of the two around the number does, and the search does not pass over that grid. A
decimal with fewer digits than the one that is found would leave a power of ten in the interval, on
a grid that the search has passed over.
-/

import CellularShader.Proofs.Decimal.Digits

namespace CellularShader

namespace Decimal

variable {F : Format} {x : Binary F} {tie : Tie}

/-! ## Grids -/

/-- The exact value of a number. -/
def exact (x : Binary F) : Decimal := ⟨x.units * 5 ^ F.unitScale, -F.unitScale⟩

theorem toBinary_exact (hx : x.isFinite = true) : (exact x).toBinary F x.negative = x :=
  beq_iff_eq.1 (readsAs_searchGrids hx .up 0 0)

theorem toRat_exact (x : Binary F) : (exact x).toRat = x.units / 2 ^ F.unitScale := by
  have hten : (10 : ℚ) ^ F.unitScale = 2 ^ F.unitScale * 5 ^ F.unitScale := by
    rw [← mul_pow]
    norm_num
  rw [toRat, exact, zpow_neg, zpow_natCast, hten]
  push_cast
  field_simp

theorem toRat_le_toRat_exact {d : Decimal} : d.toRat ≤ (exact x).toRat ↔
    d.coefficient * (2 ^ F.unitScale * scaleUp d.exponent) ≤ x.units * scaleDown d.exponent := by
  have hdown : (0 : ℚ) < scaleDown d.exponent := by exact_mod_cast scaleDown_pos d.exponent
  rw [toRat_exact, toRat_eq_div, div_le_div_iff₀ hdown (by positivity)]
  norm_cast
  rw [Nat.mul_assoc, Nat.mul_comm (scaleUp d.exponent)]

/-- If any point of a grid reads back, one of the two around the number does. -/
theorem isSome_onGrid?_of_toBinary (hx : x.isFinite = true) (tie : Tie) {d : Decimal}
    (hd : d.toBinary F x.negative = x) : (onGrid? tie x d.exponent).isSome := by
  have hpos : 0 < 2 ^ F.unitScale * scaleUp d.exponent :=
    Nat.mul_pos (Nat.two_pow_pos _) (Nat.pow_pos (by decide))
  have hgrid {a b : Nat} (h : a ≤ b) : toRat ⟨a, d.exponent⟩ ≤ toRat ⟨b, d.exponent⟩ :=
    mul_le_mul_of_nonneg_right (by exact_mod_cast h) (by positivity)
  generalize hc : x.units * scaleDown d.exponent / (2 ^ F.unitScale * scaleUp d.exponent) = c
  have hbelow : toRat ⟨c, d.exponent⟩ ≤ (exact x).toRat :=
    toRat_le_toRat_exact.2 (hc ▸ Nat.div_mul_le_self _ _)
  have habove : (exact x).toRat ≤ toRat ⟨c + 1, d.exponent⟩ := by
    refine (not_le.1 fun h => ?_).le
    have hle := toRat_le_toRat_exact.1 h
    rw [← Nat.le_div_iff_mul_le hpos, hc] at hle
    exact absurd hle (Nat.lt_irrefl c)
  have hreads : readsAs x ⟨c, d.exponent⟩ = true ∨ readsAs x ⟨c + 1, d.exponent⟩ = true := by
    rw [readsAs, readsAs, beq_iff_eq, beq_iff_eq]
    -- The point that reads back lies on one side of the number, and one of the two is between them.
    rcases Nat.lt_or_ge c d.coefficient with hlt | hge
    · exact .inr (toBinary_of_between (toBinary_exact hx) hd habove (hgrid hlt))
    · exact .inl (toBinary_of_between hd (toBinary_exact hx) (hgrid hge) hbelow)
  simp only [onGrid?, Nat.pow_eq, hc]
  cases hfirst : readsAs x ⟨c, d.exponent⟩ <;> cases hsecond : readsAs x ⟨c + 1, d.exponent⟩
  · simp [hfirst, hsecond] at hreads
  · rfl
  · rfl
  · rfl

/-! ## The search -/

/-- The grids above the one where the search ends have no point to take. -/
theorem onGrid?_of_passed {tries : Nat} {start exponent : Int}
    (htries : start = tries - F.unitScale)
    (hlow : (searchGrids tie x tries start).exponent < exponent) (hhigh : exponent ≤ start) :
    onGrid? tie x exponent = none := by
  induction tries generalizing start with
  | zero =>
    have hlast : (searchGrids tie x 0 start).exponent = -(F.unitScale : Int) := rfl
    omega
  | succ tries ih =>
    rw [searchGrids] at hlow
    split at hlow
    case h_1 d hgrid =>
      rw [exponent_of_onGrid? hgrid] at hlow
      omega
    case h_2 hgrid =>
      rcases hhigh.lt_or_eq with hlt | rfl
      · exact ih (by omega) hlow (by omega)
      · exact hgrid

theorem ten_zpow_le_toRat {d : Decimal} (hpos : 0 < d.coefficient) {exponent : Int}
    (h : exponent ≤ d.exponent) : 10 ^ exponent ≤ d.toRat :=
  calc (10 : ℚ) ^ exponent ≤ 10 ^ d.exponent := zpow_le_zpow_right₀ (by norm_num) h
    _ ≤ d.toRat := le_mul_of_one_le_left (by positivity) (by exact_mod_cast hpos)

theorem toRat_one (exponent : Int) : toRat ⟨1, exponent⟩ = 10 ^ exponent := by
  simp [toRat]

/-- Only on the grid that the search starts from can it end while a coarser one has a point that
reads back, and there it ends with a single digit. -/
theorem coefficient_shortest_eq_one (hx : x.isFinite = true) (hzero : x.isZero = false)
    {d : Decimal} (hd : d.toBinary F x.negative = x)
    (hlt : (shortest tie x).exponent < d.exponent) :
    (shortest tie x).coefficient = 1 := by
  have hpos := coefficient_shortest_pos hx hzero tie
  generalize hstart : coarseExponent (x.units.log2 + 1 - F.unitScale) = start
  have hshortest : shortest tie x = searchGrids tie x (start + F.unitScale).toNat start := by
    rw [shortest, hstart]
  have hcoarse : (exact x).toRat < 10 ^ start := by
    rw [toRat_exact, div_lt_iff₀' (by positivity), ← hstart]
    exact units_lt_start x
  -- The number is a multiple of the last grid, so at least one grid is tried.
  have htried : -(F.unitScale : Int) < start := by
    have hcoefficient := coefficient_pos_of_toBinary hzero (toBinary_exact hx)
    exact (zpow_lt_zpow_iff_right₀ (by norm_num : (1 : ℚ) < 10)).1
      ((ten_zpow_le_toRat hcoefficient le_rfl).trans_lt hcoarse)
  obtain ⟨tries, htries⟩ : ∃ n : Nat, (start + F.unitScale).toNat = n + 1 :=
    ⟨(start + F.unitScale).toNat - 1, by omega⟩
  rw [hshortest] at hlt hpos ⊢
  have hbehind : start < d.exponent := by
    by_contra hle
    have hnone := onGrid?_of_passed (by omega) hlt (not_lt.1 hle)
    have hsome := isSome_onGrid?_of_toBinary hx tie hd
    rw [hnone] at hsome
    cases hsome
  -- The first point of the first grid is between the number and the decimal, so it is taken.
  have hfirst : (⟨1, start⟩ : Decimal).toBinary F x.negative = x := by
    refine toBinary_of_between (toBinary_exact hx) hd ?_ ?_
    · exact (toRat_one start).symm ▸ hcoarse.le
    · rw [toRat_one]
      exact ten_zpow_le_toRat (coefficient_pos_of_toBinary hzero hd) hbehind.le
  obtain ⟨e, he⟩ := Option.isSome_iff_exists.1 (isSome_onGrid?_of_toBinary hx tie hfirst)
  have hbelow : x.units * scaleDown start / (2 ^ F.unitScale * scaleUp start) = 0 := by
    refine Nat.div_eq_of_lt ?_
    have hnot : ¬toRat ⟨1, start⟩ ≤ (exact x).toRat := (toRat_one start).symm ▸ not_le.2 hcoarse
    rw [toRat_le_toRat_exact, not_le, Nat.one_mul] at hnot
    exact hnot
  have hle := coefficient_of_onGrid? he
  rw [hbelow] at hle
  rw [htries, searchGrids, he] at hpos ⊢
  exact le_antisymm hle hpos

/-- No decimal with fewer digits is read as the number. -/
theorem length_digits_shortest_le (hx : x.isFinite = true) (hzero : x.isZero = false) (tie : Tie)
    {d : Decimal} (hd : d.toBinary F x.negative = x) :
    (shortest tie x).digits.length ≤ d.digits.length := by
  by_contra hlength
  have hpos := coefficient_shortest_pos hx hzero tie
  have hdigits := List.length_pos_iff.2 d.digits_ne_nil
  have hseveral : (shortest tie x).coefficient ≠ 1 := by
    intro hone
    have : (shortest tie x).digits.length = 1 := by
      rw [digits, hone]
      rfl
    omega
  have hexponent : d.exponent ≤ (shortest tie x).exponent := by
    by_contra hlt
    exact hseveral (coefficient_shortest_eq_one hx hzero hd (not_le.1 hlt))
  -- The power of ten of the leading digit is above the decimal, and a point of a coarser grid.
  have hpower := toRat_one (shortest tie x).magnitude
  have hbetween : (⟨1, (shortest tie x).magnitude⟩ : Decimal).toBinary F x.negative = x := by
    refine toBinary_of_between hd (toBinary_shortest hx tie) ?_ ?_
    · refine hpower ▸ d.toRat_lt.le.trans (zpow_le_zpow_right₀ (by norm_num) ?_)
      rw [magnitude, magnitude]
      omega
    · exact hpower ▸ le_toRat hpos
  refine hseveral (coefficient_shortest_eq_one hx hzero hbetween ?_)
  change (shortest tie x).exponent < (shortest tie x).magnitude
  rw [magnitude]
  omega

end Decimal

end CellularShader
