/- # Faithful literals

A literal is a numeral without an exponent. A whole number is denoted exactly and without a point.
Any other number is the nearest one of its format to what its literal denotes, and no decimal with
fewer digits has it for its nearest number. So the literals of two numbers are the same text exactly
when the numbers are equal.
-/

import CellularShader.Proofs.Binary.Nearest
import CellularShader.Proofs.Decimal.Fewest
import CellularShader.Proofs.Literal

namespace CellularShader

/-! ## Numerals -/

/-- Digits, which a point and further digits may follow. -/
inductive IsPositional : List Char → Prop
  | whole {whole : List Char} (hwhole : IsDigits whole) (hne : whole ≠ []) : IsPositional whole
  | point {whole fraction : List Char} (hwhole : IsDigits whole) (hne : whole ≠ [])
      (hfraction : IsDigits fraction) (hne' : fraction ≠ []) :
      IsPositional (whole ++ '.' :: fraction)

/-- Positional notation that a minus sign may stand before. -/
inductive IsNumeral : List Char → Prop
  | plain {text : List Char} (h : IsPositional text) : IsNumeral text
  | minus {text : List Char} (h : IsPositional text) : IsNumeral ('-' :: text)

/-- A decimal that a minus sign may stand before. -/
structure SignedDecimal where
  negative : Bool
  decimal : Decimal

namespace SignedDecimal

/-- The number that it stands for. -/
def toRat (d : SignedDecimal) : ℚ := withSign d.negative d.decimal.toRat

/-- How many digits it is written with, from the first one that is not zero. -/
def precision (d : SignedDecimal) : Nat := d.decimal.digits.length

/-- The decimal that a numeral denotes. -/
def ofText? : List Char → Option SignedDecimal
  | '-' :: text => (Decimal.ofText? text).map (⟨true, ·⟩)
  | text => (Decimal.ofText? text).map (⟨false, ·⟩)

theorem ofText?_minus {text : List Char} {d : Decimal} (h : Decimal.ofText? text = some d) :
    ofText? ('-' :: text) = some ⟨true, d⟩ := by
  rw [ofText?, h]
  rfl

theorem ofText?_plain {text : List Char} {d : Decimal} (hnumber : IsNumber text)
    (h : Decimal.ofText? text = some d) : ofText? text = some ⟨false, d⟩ := by
  obtain ⟨c, rest, rfl, hc⟩ := hnumber.head
  rw [ofText?, h]
  · rfl
  · rintro others ⟨⟩
    exact absurd hc (by decide)

end SignedDecimal

/-! ## Integers -/

/-- A text that denotes an integer exactly. -/
structure DenotesInt (n : Int) (text : String) : Prop where
  numeral : IsNumeral text.toList
  point : '.' ∉ text.toList
  value : ∃ d, SignedDecimal.ofText? text.toList = some d ∧ d.toRat = n
  zero : n = 0 → text = "0"

namespace Literal

theorem denotesInt_ofInt (n : Int) : DenotesInt n (ofInt n) := by
  have hvalue (m : Nat) : Decimal.ofText? (Nat.toDigits 10 m) = some ⟨m, 0⟩ := by
    rw [Decimal.ofText?_digits (isDigits_toDigits m) Nat.toDigits_ne_nil,
      Nat.ofDigitChars_ten_toDigits]
  have hpositional (m : Nat) : IsPositional (Nat.toDigits 10 m) :=
    .whole (isDigits_toDigits m) Nat.toDigits_ne_nil
  cases n with
  | ofNat m =>
    have htext := toList_ofInt_ofNat m
    constructor
    case numeral =>
      rw [htext]
      exact .plain (hpositional m)
    case point =>
      rw [htext]
      exact (isDigits_toDigits m).point_not_mem
    case value =>
      rw [htext]
      refine ⟨_, SignedDecimal.ofText?_plain ?_ (hvalue m), ?_⟩
      · exact (isDigits_toDigits m).isNumber Nat.toDigits_ne_nil
      · simp [SignedDecimal.toRat, withSign, Decimal.toRat]
    case zero =>
      intro hm
      rw [hm]
      rfl
  | negSucc m =>
    have htext := toList_ofInt_negSucc m
    constructor
    case numeral =>
      rw [htext]
      exact .minus (hpositional (m + 1))
    case point =>
      rw [htext, List.mem_cons, not_or]
      exact ⟨by decide, (isDigits_toDigits (m + 1)).point_not_mem⟩
    case value =>
      rw [htext]
      refine ⟨_, SignedDecimal.ofText?_minus (hvalue (m + 1)), ?_⟩
      simp [SignedDecimal.toRat, withSign, Decimal.toRat, Int.cast_negSucc]
    case zero =>
      intro hm
      cases hm

end Literal

/-! ## Floating-point numbers -/

section

variable {F : Format} {x : Binary F}

namespace Binary

/-- The numbers without a fractional part are integers. -/
theorem isWhole_iff (hx : x.isFinite = true) : x.isWhole = true ↔ ∃ n : Int, x.toRat = n := by
  have hdvd : x.isWhole = true ↔ 2 ^ F.unitScale ∣ x.units := by
    simp [isWhole, hx, Nat.dvd_iff_mod_eq_zero]
  rw [hdvd]
  constructor
  · rintro ⟨m, hm⟩
    have hvalue := Literal.toRat_of_whole (n := m) (by rw [hm, Nat.mul_comm])
    cases hsign : x.negative with
    | false => exact ⟨m, by simpa [hsign] using hvalue⟩
    | true => exact ⟨-m, by simpa [hsign] using hvalue⟩
  · rintro ⟨n, hn⟩
    rw [units_of_toRat_eq hn]
    exact Nat.dvd_mul_left _ _

theorem equals_iff_toRat {y : Binary F} (hx : x.isFinite = true) (hy : y.isFinite = true) :
    x.equals y = true ↔ x.toRat = y.toRat := by
  have hvalue : x.toRat = y.toRat ↔ x.value = y.value := by
    rw [toRat_eq_div, toRat_eq_div, div_left_inj' (by positivity), Int.cast_inj]
  rw [hvalue, equals, isNaN_of_isFinite hx, isNaN_of_isFinite hy]
  simp

end Binary

namespace Decimal

/-- A decimal is read as the number nearest to it. -/
theorem isNearest_of_toBinary (hfraction : 0 < F.fractionBits) {d : Decimal}
    (h : d.toBinary F x.negative = x) : Binary.IsNearest (withSign x.negative d.toRat) x := by
  have hnearest := Binary.isNearest_ofRatio hfraction x.negative
    (d.coefficient * scaleUp d.exponent) (scaleDown_pos d.exponent)
  rw [← toRat_eq_div] at hnearest
  exact h ▸ hnearest

end Decimal

/-- A decimal that has a number other than zero for its nearest one is read as that number. -/
theorem SignedDecimal.toBinary_of_isNearest (hfraction : 0 < F.fractionBits)
    (hzero : x.isZero = false) {d : SignedDecimal} (h : Binary.IsNearest d.toRat x) :
    d.decimal.toBinary F x.negative = x := by
  rw [SignedDecimal.toRat, Decimal.toRat_eq_div] at h
  have hread : d.decimal.toBinary F d.negative = x :=
    h.ofRatio_eq hfraction (Decimal.scaleDown_pos _) hzero
  have hsign : d.negative = x.negative := congrArg Binary.negative hread
  rw [← hsign]
  exact hread

/-- A text that denotes a number faithfully: an integer as such, and any other number by a decimal
to which it is the nearest one, with as few digits as such a decimal can have. -/
structure Denotes (x : Binary F) (text : String) : Prop where
  numeral : IsNumeral text.toList
  whole : ∀ n : Int, x.toRat = n → DenotesInt n text
  fraction : (∀ n : Int, x.toRat ≠ n) → ∃ d, SignedDecimal.ofText? text.toList = some d ∧
    Binary.IsNearest d.toRat x ∧
      ∀ e : SignedDecimal, Binary.IsNearest e.toRat x → d.precision ≤ e.precision

namespace Literal

/-- A whole number is written as an integer. -/
theorem ofBinary_of_whole (hx : x.isFinite = true) {n : Int} (h : x.toRat = n) :
    ofBinary x = ofInt n := by
  have hunits := Binary.units_of_toRat_eq h
  have hpos : 0 < 2 ^ F.unitScale := Nat.two_pow_pos _
  have hmagnitude : (ofMagnitude x).toList = Nat.toDigits 10 n.natAbs := by
    rw [ofMagnitude, if_pos ((Binary.isWhole_iff hx).2 ⟨n, h⟩), Nat.toList_repr, hunits, Nat.pow_eq,
      Nat.mul_div_cancel _ hpos]
  have hzero : x.isZero = true ↔ n = 0 := by
    rw [← Binary.units_eq_zero_iff, hunits]
    simp
  have hvalue := toRat_of_whole hunits.symm
  rw [h] at hvalue
  rw [← String.toList_inj, toList_ofBinary hx, hmagnitude]
  -- A negative zero shows no sign, as zero has none.
  cases n with
  | ofNat m =>
    have hplain : (x.negative && !x.isZero) = false := by
      cases hsign : x.negative with
      | false => rfl
      | true =>
        have hm : m = 0 := by
          rw [hsign, if_pos rfl, Int.ofNat_eq_natCast, Int.natAbs_natCast, Int.cast_natCast,
            self_eq_neg] at hvalue
          exact_mod_cast hvalue
        rw [hzero.2 (congrArg Int.ofNat hm)]
        rfl
    rw [hplain, toList_ofInt_ofNat]
    rfl
  | negSucc m =>
    have hminus : (x.negative && !x.isZero) = true := by
      have hnonzero : x.isZero = false := by
        rw [← Bool.not_eq_true, hzero]
        exact Int.negSucc_ne_zero m
      cases hsign : x.negative with
      | true =>
        rw [hnonzero]
        rfl
      | false =>
        rw [hsign, if_neg Bool.false_ne_true, Int.natAbs_negSucc, Int.cast_negSucc] at hvalue
        have : (0 : ℚ) < (m + 1 : Nat) := by positivity
        linarith
    rw [hminus, toList_ofInt_negSucc]
    rfl

theorem isZero_of_fraction (hx : x.isFinite = true) (hwhole : x.isWhole = false) :
    x.isZero = false := by
  rw [← Bool.not_eq_true]
  intro hzero
  have : x.isWhole = true := (Binary.isWhole_iff hx).2 ⟨0, toRat_of_isZero hzero⟩
  rw [hwhole] at this
  cases this

/-- Any other number is written by its shortest digits. -/
theorem toList_ofBinary_of_fraction (hx : x.isFinite = true) (hwhole : x.isWhole = false) :
    (ofBinary x).toList = if x.negative then '-' :: (Decimal.shortest .up x).positional.toList
      else (Decimal.shortest .up x).positional.toList := by
  have hzero := isZero_of_fraction hx hwhole
  rw [toList_ofBinary hx, ofMagnitude, hwhole, hzero]
  simp

theorem numeral_of_fraction (hx : x.isFinite = true) (hwhole : x.isWhole = false) :
    IsNumeral (ofBinary x).toList ∧
      SignedDecimal.ofText? (ofBinary x).toList = some ⟨x.negative, Decimal.shortest .up x⟩ := by
  obtain ⟨whole, fraction, htext, hdigits, hne, hfraction, hne', hvalue⟩ :=
    Decimal.positional_of_neg (exponent_shortest_neg hx hwhole .up)
  rw [toList_ofBinary_of_fraction hx hwhole, htext]
  cases x.negative with
  | true => exact ⟨.minus (.point hdigits hne hfraction hne'), SignedDecimal.ofText?_minus hvalue⟩
  | false =>
    exact ⟨.plain (.point hdigits hne hfraction hne'),
      SignedDecimal.ofText?_plain (hdigits.isNumber_point hne hfraction) hvalue⟩

/-- The literal of a number denotes it faithfully. -/
theorem denotes_ofBinary (hfraction : 0 < F.fractionBits) (hx : x.isFinite = true) :
    Denotes x (ofBinary x) := by
  constructor
  case numeral =>
    cases hwhole : x.isWhole with
    | true =>
      obtain ⟨n, hn⟩ := (Binary.isWhole_iff hx).1 hwhole
      rw [ofBinary_of_whole hx hn]
      exact (denotesInt_ofInt n).numeral
    | false => exact (numeral_of_fraction hx hwhole).1
  case whole =>
    intro n hn
    rw [ofBinary_of_whole hx hn]
    exact denotesInt_ofInt n
  case fraction =>
    intro hnot
    have hwhole : x.isWhole = false := by
      rw [← Bool.not_eq_true, Binary.isWhole_iff hx]
      rintro ⟨n, hn⟩
      exact hnot n hn
    refine ⟨_, (numeral_of_fraction hx hwhole).2, ?_, fun e he => ?_⟩
    · exact Decimal.isNearest_of_toBinary hfraction (Decimal.toBinary_shortest hx .up)
    · have hzero := isZero_of_fraction hx hwhole
      exact Decimal.length_digits_shortest_le hx hzero .up
        (SignedDecimal.toBinary_of_isNearest hfraction hzero he)

/-- A third has fewer digits in 32 bits than in 64. -/
example : ofBinary (Binary.ofRatio .single true 1 3) = "-0.33333334" ∧
    ofBinary (Binary.ofRatio .double true 1 3) = "-0.3333333333333333" := by
  decide +kernel

/-- The literals of two numbers are the same text exactly when the numbers are equal. -/
theorem ofBinary_eq_iff {y : Binary F} (hx : x.isFinite = true) (hy : y.isFinite = true) :
    ofBinary x = ofBinary y ↔ x.equals y = true := by
  rw [Binary.equals_iff_toRat hx hy]
  constructor
  · intro h
    obtain ⟨v, hv, hvalue⟩ := ofNumeral?_ofBinary hx
    obtain ⟨w, hw, hvalue'⟩ := ofNumeral?_ofBinary hy
    rw [h, hw, Option.some.injEq] at hv
    rw [← hv, hvalue', Option.some.injEq] at hvalue
    exact hvalue.symm
  · intro h
    -- Only the two zeros are different numbers with the same value.
    by_cases hzero : x.isZero = true
    · have hvalue : x.toRat = (0 : Int) := by
        rw [toRat_of_isZero hzero]
        rfl
      rw [ofBinary_of_whole hx hvalue, ofBinary_of_whole hy (h ▸ hvalue)]
    · rw [Binary.eq_of_toRat (Bool.eq_false_of_not_eq_true hzero) h]

/-- The 64-bit number of a word is the word itself, and so is its literal. -/
theorem ofInt_eq_ofBinary (n : Int32) : ofInt n.toInt = ofBinary (.ofInt .double n.toInt) := by
  have hlow := n.le_toInt
  have hhigh := n.toInt_lt
  have hbits : n.toInt.natAbs ≤ 2 * 2 ^ Format.double.fractionBits := by
    rw [show Format.double.fractionBits = 52 from rfl]
    omega
  obtain ⟨hfinite, hvalue⟩ := Binary.toRat_ofInt hbits (by decide)
  exact (ofBinary_of_whole hfinite hvalue).symm

/-- The literals of the finite numbers of both formats, and those of words, denote them faithfully,
and equal literals belong to equal numbers. -/
theorem literals_faithful :
    (∀ F ∈ [Format.single, Format.double], ∀ x : Binary F, x.isFinite = true →
      Denotes x (ofBinary x) ∧ ∀ y : Binary F, y.isFinite = true →
        (ofBinary x = ofBinary y ↔ x.equals y = true)) ∧
      ∀ n : Int32, DenotesInt n.toInt (ofInt n.toInt) ∧
        ofInt n.toInt = ofBinary (.ofInt .double n.toInt) ∧
        ∀ m : Int32, ofInt m.toInt = ofInt n.toInt ↔ m = n := by
  constructor
  · intro F hF x hx
    have hfraction : ∀ F ∈ [Format.single, Format.double], 0 < F.fractionBits := by decide
    exact ⟨denotes_ofBinary (hfraction F hF) hx, fun y hy => ofBinary_eq_iff hx hy⟩
  · intro n
    refine ⟨denotesInt_ofInt n.toInt, ofInt_eq_ofBinary n, fun m => ?_⟩
    rw [ofInt_injective.eq_iff, Int32.toInt_inj]

/-- The smallest positive number, which is no integer, and the largest finite one, which is. -/
theorem literals_faithful_extremes :
    Denotes (Binary.ofBits .double 1) (ofBinary (Binary.ofBits .double 1)) ∧
      Denotes (Binary.ofBits .single 0x7f7fffff) (ofBinary (Binary.ofBits .single 0x7f7fffff)) :=
  ⟨(literals_faithful.1 .double (by decide) _ (by decide)).1,
    (literals_faithful.1 .single (by decide) _ (by decide)).1⟩

end Literal

end

end CellularShader
