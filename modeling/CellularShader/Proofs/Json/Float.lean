/- # Floats read from their text

A finite float is written by the digits of its shortest decimal, with a point or with an exponent.
The digits fit into a word. The reader rounds that word to a float and multiplies or divides it by a
power of ten, which is rounded as well. Even so no float is written in a way that is read as too
large. The float that is read is the one that was written when its digits fit into a significand and
the power of ten is exact.
-/

import CellularShader.Json.Printer
import CellularShader.Proofs.Decimal.Digits
import CellularShader.Proofs.Json.Finite
import CellularShader.Proofs.Json.Scalar
import Mathlib.Data.List.Basic
import Mathlib.Tactic.FieldSimp

namespace CellularShader

/-! ## Decimals with a point -/

namespace Decimal

/-- The same number with at least one place behind the point. -/
def withPlace (d : Decimal) : Decimal :=
  if 0 ≤ d.exponent then ⟨d.coefficient * 10 ^ (d.exponent + 1).toNat, -1⟩ else d

theorem toRat_withPlace (d : Decimal) : d.withPlace.toRat = d.toRat := by
  rw [withPlace]
  split_ifs with h
  · obtain ⟨k, hk⟩ := Int.eq_ofNat_of_zero_le h
    rw [toRat, toRat, hk, show ((k : Int) + 1).toNat = k + 1 by omega]
    push_cast
    rw [zpow_natCast, zpow_neg, zpow_one, pow_succ]
    field_simp
  · rfl

/-- The digits of a decimal with a point are those of the decimal with a place behind it. -/
theorem pointed_spec {d : Decimal} (hpos : 0 < d.coefficient) : ∃ whole fraction : List Char,
    d.pointed.toList = whole ++ '.' :: fraction ∧ IsWhole whole ∧ IsDigits fraction ∧
      fraction ≠ [] ∧
      (⟨Nat.ofDigitChars 10 (whole ++ fraction) 0, -fraction.length⟩ : Decimal) = d.withPlace := by
  -- Either digits stand behind the point already, or a zero is put there.
  rcases lt_or_ge d.exponent 0 with hneg | hnonneg
  · obtain ⟨whole, fraction, hplaces, hdigits, hfraction, hlength, hvalue⟩ := places_of_neg hneg
    have hne : fraction ≠ [] := by
      rintro rfl
      simp at hlength
      omega
    refine ⟨whole, fraction, by simp [pointed, hplaces, hne], hdigits, hfraction, hne, ?_⟩
    rw [withPlace, if_neg (by omega), hvalue, hlength, Int.neg_neg]
  · have hplaces := places_of_nonneg hnonneg
    refine ⟨d.digits ++ List.replicate d.exponent.toNat '0', ['0'], by simp [pointed, hplaces],
      ⟨?_, ?_, ?_⟩, isDigits_zeros 1, by simp, ?_⟩
    · exact d.isDigits_digits.append (isDigits_zeros _)
    · simp [d.digits_ne_nil]
    · intro hhead
      rw [List.head?_append_of_ne_nil _ d.digits_ne_nil] at hhead
      exact absurd hhead (head?_toDigits_ne_zero hpos)
    · have hsucc : (d.exponent + 1).toNat = d.exponent.toNat + 1 := by omega
      rw [withPlace, if_pos hnonneg, Nat.ofDigitChars_append, Nat.ofDigitChars_append,
        ofDigitChars_digits, Nat.ofDigitChars_replicate_zero, hsucc, pow_succ]
      simp [Nat.ofDigitChars_cons]
      ring

theorem coefficient_withPlace_lt {d : Decimal} {bound : Nat} (hd : d.coefficient < bound)
    (hmagnitude : d.magnitude ≤ 15) (hbound : 10 ^ 17 ≤ bound) :
    d.withPlace.coefficient < bound := by
  by_cases hexponent : 0 ≤ d.exponent
  · -- The coefficient is ten times a number below the sixteenth power.
    have hlt : d.withPlace.toRat < 10 ^ 16 := by
      rw [toRat_withPlace]
      refine d.toRat_lt.trans_le ?_
      rw [← zpow_natCast]
      exact zpow_le_zpow_right₀ (by norm_num) (by push_cast; omega)
    have hplace : d.withPlace.exponent = -1 := by rw [withPlace, if_pos hexponent]
    rw [toRat, hplace, zpow_neg_one, ← div_eq_mul_inv, div_lt_iff₀ (by norm_num)] at hlt
    have hcoefficient : d.withPlace.coefficient < 10 ^ 17 := by
      have : (d.withPlace.coefficient : ℚ) < 10 ^ 17 := by linarith
      exact_mod_cast this
    omega
  · rwa [withPlace, if_neg hexponent]

end Decimal

namespace Json

namespace Numeral

/-! ## Digits in a word -/

theorem ofDigitChars_ge (ds : List Char) (word : Nat) : word ≤ Nat.ofDigitChars 10 ds word := by
  rw [Nat.ofDigitChars_eq_ofDigitChars_zero]
  exact (Nat.le_mul_of_pos_left word (Nat.pow_pos (by decide))).trans (Nat.le_add_right _ _)

/-- All digits of a number that fits into a word are appended. -/
theorem gather_of_lt {ds : List Char} {word : Nat} (h : Nat.ofDigitChars 10 ds word < wordBound) :
    gather word ds = (Nat.ofDigitChars 10 ds word, ds.length) := by
  induction ds generalizing word with
  | nil => rfl
  | cons c ds ih =>
    rw [Nat.ofDigitChars_cons] at h ⊢
    -- Appending digits makes a number no smaller, so the words on the way fit as well.
    have hroom : 10 * word + (c.toNat - '0'.toNat) < wordBound :=
      (ofDigitChars_ge ds _).trans_lt h
    rw [gather]
    simp only [if_pos hroom, ih h, List.length_cons]

theorem significand_of_lt {negative : Bool} {whole fraction : List Char}
    {exponent : Option (Bool × List Char)}
    (h : Nat.ofDigitChars 10 (whole ++ fraction) 0 < wordBound) :
    significand ⟨negative, whole, fraction, exponent⟩ =
      (Nat.ofDigitChars 10 (whole ++ fraction) 0, -(fraction.length : Int)) := by
  rw [Nat.ofDigitChars_append] at h ⊢
  have hwhole : Nat.ofDigitChars 10 whole 0 < wordBound := (ofDigitChars_ge fraction _).trans_lt h
  simp [significand, gather_of_lt hwhole, gather_of_lt h]

/-- The power of ten that the exponent of a numeral names. -/
def power (numeral : Numeral) : Int :=
  match numeral.exponent with
  | none => 0
  | some (negative, ds) => if negative then -natOfDigits ds else natOfDigits ds

/-- The decimal that a numeral denotes. -/
def decimal (numeral : Numeral) : Decimal :=
  ⟨natOfDigits (numeral.whole ++ numeral.fraction), numeral.power - numeral.fraction.length⟩

/-! ## Scaling -/

/-- A quotient of few bits is kept in 64 bits. -/
theorem units_ofRatio_double (negative : Bool) {n d q shift : Nat} (hd : 0 < d)
    (h : n * 2 ^ Format.double.unitScale = q * 2 ^ shift * d) (hq : q < 2 ^ 53)
    (hshift : shift ≤ Format.double.unitScale) :
    (Binary.ofRatio .double negative n d).units = q * 2 ^ shift := by
  have hbits : (2 : Nat) ^ 53 = 2 * 2 ^ Format.double.fractionBits := rfl
  have hlt : q * 2 ^ shift < 2 ^ (Format.double.fractionBits + 1075) :=
    calc q * 2 ^ shift < 2 ^ 53 * 2 ^ shift := Nat.mul_lt_mul_of_pos_right hq (Nat.two_pow_pos _)
      _ = 2 ^ (53 + shift) := (pow_add ..).symm
      _ ≤ 2 ^ (Format.double.fractionBits + 1075) := by
        refine Nat.pow_le_pow_right (by decide) ?_
        have : Format.double.unitScale = 1074 := rfl
        have : Format.double.fractionBits = 52 := rfl
        omega
  have hfinite : (Binary.ofRatio .double negative n d).isFinite = true :=
    Binary.isFinite_ofRatio negative 1075 hd (by rw [h]; exact Nat.mul_lt_mul_of_pos_right hlt hd)
      (by decide)
  exact Binary.units_ofRatio_of_fits negative hd h (hbits ▸ hq) hfinite

theorem units_ofInt_double {n : Nat} (h : n < 2 ^ 53) :
    (Binary.ofInt .double n).units = n * 2 ^ Format.double.unitScale := by
  rw [Binary.ofInt, Int.natAbs_natCast]
  exact units_ofRatio_double _ Nat.one_pos (Nat.mul_one _).symm h le_rfl

theorem negative_ofInt_natCast (n : Nat) : (Binary.ofInt .double n).negative = false := by
  simp [Binary.ofInt, Binary.ofRatio]

/-- A bound on the numbers that are read as less than the greatest float: it lies just above the
middle between the greatest float and the one before it. -/
def reach : Nat := 2 ^ 1024 - 3 * 2 ^ 970 + 1

/-- The least power of two beyond all floats. -/
def overflow : Nat := 2 ^ 1024

/-- The rounded product of a word and a power of ten is a float as long as the exact one is within
reach. -/
theorem isFinite_mul_powerOfTen {word e : Nat} (hword : word < wordBound) (he : e ≤ scaleLimit)
    (h : word * 10 ^ e ≤ reach) :
    ((Binary.ofInt .double word).mul (powerOfTen e)).isFinite = true := by
  rcases Nat.lt_or_ge e 289 with hsmall | hlarge
  · -- The greatest word and the greatest of these powers stay far within reach.
    refine Binary.isFinite_mul_of_le (Binary.units_ofInt_mono (Nat.le_sub_one_of_lt hword))
      (Binary.units_ofInt_mono (Nat.pow_le_pow_right (by decide) (Nat.le_of_lt_succ hsmall))) ?_
    decide +kernel
  · -- For each other power it is enough to look at the greatest word within reach.
    have hgreatest : ∀ i < 20, ((Binary.ofInt .double (reach / 10 ^ (289 + i) : Nat)).mul
        (powerOfTen (289 + i))).isFinite = true := by
      decide +kernel
    obtain ⟨i, rfl⟩ := Nat.exists_eq_add_of_le hlarge
    refine Binary.isFinite_mul_of_le (Binary.units_ofInt_mono ?_) le_rfl (hgreatest i ?_)
    · exact (Nat.le_div_iff_mul_le (Nat.pow_pos (by decide))).2 h
    · rw [scaleLimit] at he
      omega

theorem exists_scale {word : Nat} {e : Int} (hword : word < wordBound)
    (h : (word : ℚ) * 10 ^ e ≤ reach) : ∃ y, scale (.ofInt .double word) e = .ok y := by
  by_cases hzero : (Binary.ofInt .double word).isZero = true
  · exact ⟨_, if_pos hzero⟩
  have hpos : 0 < word := by
    refine Nat.pos_of_ne_zero ?_
    rintro rfl
    exact hzero (by decide +kernel)
  have hpower : (10 : ℚ) ^ e ≤ reach := by
    refine le_trans ?_ h
    exact le_mul_of_one_le_left (by positivity) (by exact_mod_cast hpos)
  have he : e ≤ scaleLimit := by
    by_contra hlt
    have hreach : (reach : ℚ) < 10 ^ (scaleLimit + 1) := by
      exact_mod_cast (by decide +kernel : reach < 10 ^ (scaleLimit + 1))
    have hten : (10 : ℚ) ^ (scaleLimit + 1) ≤ 10 ^ e := by
      rw [← zpow_natCast]
      exact zpow_le_zpow_right₀ (by norm_num) (by push_cast; omega)
    exact absurd (hten.trans hpower) (not_le.2 hreach)
  simp only [scale, if_neg hzero, if_neg (not_lt.2 he)]
  split_ifs with hnonneg hfinite
  · exact ⟨_, rfl⟩
  · obtain ⟨k, rfl⟩ := Int.eq_ofNat_of_zero_le hnonneg
    refine absurd (isFinite_mul_powerOfTen hword (by exact_mod_cast he) ?_) hfinite
    rw [zpow_natCast] at h
    exact_mod_cast h
  · exact ⟨_, rfl⟩
  · exact ⟨_, rfl⟩
  · exact ⟨_, rfl⟩

/-- A word that is a significand and a power of ten that is a float make up the nearest float. -/
theorem scale_of_small {word : Nat} {e : Int} (hword : word < 2 ^ 53) (hlow : -22 ≤ e)
    (hhigh : e ≤ 22) :
    scale (.ofInt .double word) e = .ok (Decimal.toBinary .double false ⟨word, e⟩) := by
  have hunits := units_ofInt_double hword
  have hpowers : ∀ k < 23, (powerOfTen k).units = 10 ^ k * 2 ^ Format.double.unitScale := by
    decide +kernel
  by_cases hzero : (Binary.ofInt .double word).isZero = true
  · have hnone : word = 0 := by
      rw [Binary.units_eq_zero_iff.2 hzero] at hunits
      exact (Nat.mul_eq_zero.1 hunits.symm).resolve_right (Nat.two_pow_pos _).ne'
    subst hnone
    rw [scale, if_pos hzero]
    refine congrArg _ (Binary.ofRatio_congr false Nat.one_pos (Decimal.scaleDown_pos e) ?_)
    simp
  · have hsign (k : Nat) : ((Binary.ofInt .double word).negative != (powerOfTen k).negative) =
        false := by
      rw [negative_ofInt_natCast, powerOfTen, negative_ofInt_natCast]
      rfl
    have hlimit : scaleLimit = 308 := rfl
    simp only [scale, if_neg hzero, hlimit]
    rcases le_or_gt 0 e with hnonneg | hneg
    · obtain ⟨k, rfl⟩ := Int.eq_ofNat_of_zero_le hnonneg
      have hfinite : ((Binary.ofInt .double word).mul (powerOfTen k)).isFinite = true := by
        refine isFinite_mul_powerOfTen (hword.trans (by decide)) (by omega) ?_
        calc word * 10 ^ k ≤ 2 ^ 53 * 10 ^ 22 :=
              Nat.mul_le_mul hword.le (Nat.pow_le_pow_right (by decide) (by omega))
          _ ≤ reach := by decide +kernel
      rw [if_neg (by omega), if_pos hnonneg, Int.toNat_natCast, if_pos hfinite,
        Binary.mul_of_whole hunits (hpowers k (by omega)), hsign]
      simp [Decimal.toBinary, Decimal.scaleUp, Decimal.scaleDown]
    · obtain ⟨k, rfl⟩ : ∃ k : Nat, e = -k := ⟨(-e).toNat, by omega⟩
      rw [if_neg (by omega), if_neg (by omega), if_pos (by omega), Int.neg_neg, Int.toNat_natCast,
        Binary.div_of_whole hunits (hpowers k (by omega)) (Nat.pow_pos (by decide)), hsign]
      simp [Decimal.toBinary, Decimal.scaleUp, Decimal.scaleDown]

/-! ## Numerals of floats -/

/-- Numerals that are read as floats: they have a point or an exponent, which is not too large. -/
structure IsFloat (numeral : Numeral) : Prop extends numeral.IsProper where
  marked : numeral.fraction ≠ [] ∨ numeral.exponent ≠ none
  power_le : numeral.power ≤ exponentLimit

theorem magnitude_eq_scale {numeral : Numeral} (hhigh : numeral.power ≤ exponentLimit)
    (hlow : -(exponentLimit : Int) ≤ numeral.power) : numeral.magnitude =
      scale (.ofInt .double numeral.significand.1) (numeral.significand.2 + numeral.power) := by
  obtain ⟨negative, whole, fraction, exponent⟩ := numeral
  cases exponent with
  | none => rw [power, magnitude, Int.add_zero]
  | some exponent =>
    obtain ⟨minus, ds⟩ := exponent
    have hwritten : natOfDigits ds ≤ exponentLimit := by
      cases minus <;> simp [power] at hhigh hlow <;> omega
    cases minus with
    | false => simp [magnitude, power, hwritten]
    | true => simp [magnitude, power, hwritten, Int.sub_eq_add_neg]

theorem IsFloat.value_eq {numeral : Numeral} (h : numeral.IsFloat) {y : Double}
    (hy : numeral.magnitude = .ok y) :
    ∃ h, numeral.value = .ok (.float (if numeral.negative then y.neg else y) h) := by
  refine value_of_magnitude ?_ hy
  rcases h.marked with hfraction | hexponent
  · simp [integer?, hfraction]
  · simp [integer?, Option.isSome_iff_ne_none.2 hexponent]

/-- All digits of a numeral are read when they fit into a word together. -/
theorem IsFloat.magnitude_of_word {numeral : Numeral} (h : numeral.IsFloat)
    (hword : numeral.decimal.coefficient < wordBound)
    (hlow : -(exponentLimit : Int) ≤ numeral.decimal.exponent) : numeral.magnitude =
      scale (.ofInt .double numeral.decimal.coefficient) numeral.decimal.exponent := by
  have hexponent : numeral.decimal.exponent = numeral.power - numeral.fraction.length := rfl
  have hsignificand : numeral.significand =
      (numeral.decimal.coefficient, -(numeral.fraction.length : Int)) :=
    significand_of_lt hword
  rw [magnitude_eq_scale h.power_le (by omega), hsignificand, Int.add_comm,
    ← sub_eq_add_neg, ← hexponent]

/-- Positional notation is a numeral with a point. -/
theorem exists_pointed (negative : Bool) {d : Decimal} (hpos : 0 < d.coefficient) :
    ∃ numeral : Numeral, numeral.negative = negative ∧
      numeral.text = (if negative then ['-'] else []) ++ d.pointed.toList ∧ numeral.IsFloat ∧
      numeral.decimal = d.withPlace := by
  obtain ⟨whole, fraction, htext, hwhole, hfraction, hne, hdecimal⟩ := Decimal.pointed_spec hpos
  refine ⟨⟨negative, whole, fraction, none⟩, rfl, ?_,
    ⟨⟨hwhole, hfraction, nofun⟩, Or.inl hne, (by decide : (0 : Int) ≤ exponentLimit)⟩, ?_⟩
  · simp [text, plainText, exponentText, htext, hne]
  · rw [← hdecimal, decimal, power, Int.zero_sub, natOfDigits]

/-- Scientific notation is a numeral with an exponent. -/
theorem exists_scientific (negative : Bool) {d : Decimal}
    (hmagnitude : d.magnitude ≤ exponentLimit) : ∃ numeral : Numeral, numeral.negative = negative ∧
      numeral.text = (if negative then ['-'] else []) ++ d.scientific.toList ∧ numeral.IsFloat ∧
      numeral.decimal = d := by
  have hwhole : IsWhole (d.digits.take 1) := by
    refine ⟨fun c hc => d.isDigits_digits c (List.mem_of_mem_take hc), ?_, ?_⟩
    · simp [d.digits_ne_nil]
    · cases d.digits with
      | nil => simp
      | cons c ds => simp
  have hpower : power ⟨negative, d.digits.take 1, d.digits.drop 1,
      some (decide (d.magnitude < 0), Nat.toDigits 10 d.magnitude.natAbs)⟩ = d.magnitude := by
    simp only [power, natOfDigits, Nat.ofDigitChars_ten_toDigits, decide_eq_true_eq]
    split_ifs <;> omega
  refine ⟨⟨negative, d.digits.take 1, d.digits.drop 1,
    some (decide (d.magnitude < 0), Nat.toDigits 10 d.magnitude.natAbs)⟩, rfl, ?_,
    ⟨⟨hwhole, fun c hc => d.isDigits_digits c (List.mem_of_mem_drop hc), ?_⟩,
      Or.inr (Option.some_ne_none _), hpower.le.trans hmagnitude⟩, ?_⟩
  · have hsign : (if d.magnitude < 0 then "-" else "+").toList =
        [if d.magnitude < 0 then '-' else '+'] := by
      split_ifs <;> rfl
    -- The point is left out behind a single digit.
    by_cases hnil : d.digits.tail = [] <;>
      simp [text, plainText, exponentText, Decimal.scientific, hnil, hsign]
  · rintro _ ⟨⟩
    exact ⟨isDigits_toDigits _, Nat.toDigits_ne_nil⟩
  · rw [decimal, hpower, natOfDigits, List.take_append_drop, d.ofDigitChars_digits,
      List.length_drop, Decimal.magnitude]
    have := List.length_pos_iff.2 d.digits_ne_nil
    congr 1
    omega

end Numeral

/-! ## Texts of floats -/

namespace FloatStyle

variable {F : Format} {style : FloatStyle} {x : Binary F}

/-- The decimal that a number is written as. -/
def decimal (style : FloatStyle) (x : Binary F) : Decimal :=
  let d := Decimal.shortest .even x
  if x.isZero then ⟨0, -1⟩
  else if style.least ≤ d.magnitude ∧ d.magnitude ≤ style.greatest then d.withPlace
  else d

theorem toRat_decimal (hzero : x.isZero = false) :
    (style.decimal x).toRat = (Decimal.shortest .even x).toRat := by
  simp only [decimal, hzero, Bool.false_eq_true, if_false]
  split_ifs
  · exact Decimal.toRat_withPlace _
  · rfl

/-- The decimal that a number is written as is read as the number. -/
theorem toBinary_decimal (hx : x.isFinite = true) :
    (style.decimal x).toBinary F x.negative = x := by
  cases hzero : x.isZero with
  | true =>
    refine Binary.ofRatio_eq_of_exact hx (Decimal.scaleDown_pos _) ?_
    simp [decimal, hzero, Binary.units_eq_zero_iff.2 hzero]
  | false =>
    rw [Decimal.toBinary_congr x.negative (toRat_decimal hzero)]
    exact Decimal.toBinary_shortest hx .even

theorem magnitude_le_of_toRat_lt {d : Decimal} (hpos : 0 < d.coefficient)
    (h : d.toRat < Numeral.overflow) : d.magnitude ≤ Numeral.exponentLimit := by
  have hten : (10 : ℚ) ^ d.magnitude < 10 ^ (309 : Int) := by
    refine (Decimal.le_toRat hpos).trans_lt (h.trans ?_)
    exact_mod_cast (by decide +kernel : Numeral.overflow < 10 ^ 309)
  have hlt := (zpow_lt_zpow_iff_right₀ (by norm_num)).1 hten
  rw [Numeral.exponentLimit]
  omega

/-- A number is written as a numeral that denotes its decimal. -/
theorem exists_numeral (style : FloatStyle) (hx : x.isFinite = true)
    (hlt : (Decimal.shortest .even x).toRat < Numeral.overflow) :
    ∃ numeral : Numeral, numeral.negative = x.negative ∧ (style.text x).toList = numeral.text ∧
      numeral.IsFloat ∧ numeral.decimal = style.decimal x := by
  have htext : (style.text x).toList =
      (if x.negative then ['-'] else []) ++ (style.magnitudeText x).toList := by
    cases hsign : x.negative <;> simp [text, hsign]
  rw [htext]
  cases hzero : x.isZero with
  | true =>
    refine ⟨⟨x.negative, ['0'], ['0'], none⟩, rfl, ?_, ⟨⟨isWhole_toDigits 0, isDigits_zeros 1,
      nofun⟩, Or.inl (by simp), (by decide : (0 : Int) ≤ Numeral.exponentLimit)⟩, ?_⟩
    · simp [magnitudeText, hzero, Numeral.text, Numeral.plainText, Numeral.exponentText]
    · simp [decimal, hzero, Numeral.decimal, Numeral.power, Numeral.natOfDigits,
        Nat.ofDigitChars_cons]
  | false =>
    have hpos := Decimal.coefficient_shortest_pos hx hzero .even
    simp only [magnitudeText, decimal, hzero, Bool.false_eq_true, if_false]
    by_cases hrange : style.least ≤ (Decimal.shortest .even x).magnitude ∧
        (Decimal.shortest .even x).magnitude ≤ style.greatest
    · obtain ⟨numeral, hsign, htext, hfloat⟩ := Numeral.exists_pointed x.negative hpos
      simp only [if_pos hrange]
      exact ⟨numeral, hsign, htext.symm, hfloat⟩
    · obtain ⟨numeral, hsign, htext, hfloat⟩ :=
        Numeral.exists_scientific x.negative (magnitude_le_of_toRat_lt hpos hlt)
      simp only [if_neg hrange]
      exact ⟨numeral, hsign, htext.symm, hfloat⟩

/-! ## Texts within reach -/

/-- A bound that is read as infinity is above the decimals of all finite numbers. -/
theorem toRat_shortest_lt (hx : x.isFinite = true) {bound : Nat}
    (hbound : F.infinity ≤ Binary.nearestPattern F bound 1) :
    (Decimal.shortest .even x).toRat < bound :=
  Decimal.toRat_lt_of_toBinary (Decimal.toBinary_shortest hx .even)
    ((Binary.isFinite_iff.1 hx).trans_le hbound)

/-- A style and a format whose numbers are written with digits that fit into a word. -/
structure Suits (style : FloatStyle) (F : Format) : Prop where
  greatest_le : style.greatest ≤ 15
  scale_ge : 3 ≤ F.unitScale
  scale_le : F.unitScale ≤ Numeral.exponentLimit
  digits_lt : 80 * 2 ^ F.fractionBits < Numeral.wordBound

theorem suits_single : single.Suits .single := ⟨by decide, by decide, by decide, by decide⟩

theorem suits_double : double.Suits .double := ⟨by decide, by decide, by decide, by decide⟩

theorem Suits.coefficient_decimal_lt (h : style.Suits F) (hx : x.isFinite = true) :
    (style.decimal x).coefficient < Numeral.wordBound := by
  cases hzero : x.isZero with
  | true =>
    simp only [decimal, hzero, if_true]
    decide
  | false =>
    have hlt := (Decimal.coefficient_shortest_le hx hzero h.scale_ge .even).trans_lt h.digits_lt
    simp only [decimal, hzero, Bool.false_eq_true, if_false]
    split_ifs with hrange
    · exact Decimal.coefficient_withPlace_lt hlt (hrange.2.trans h.greatest_le) (by decide)
    · exact hlt

theorem Suits.exponent_decimal_ge (h : style.Suits F) (x : Binary F) :
    -(Numeral.exponentLimit : Int) ≤ (style.decimal x).exponent := by
  have hlow := Decimal.exponent_shortest_ge x .even
  have hscale := h.scale_le
  simp only [decimal, Decimal.withPlace]
  split_ifs
  · decide
  · exact (by decide : -(Numeral.exponentLimit : Int) ≤ -1)
  · omega
  · omega

/-- The magnitude that the reader makes of the digits of a number: their float, times the power of
ten that puts the point in its place. -/
def scaled (style : FloatStyle) (x : Binary F) : Except Fault Double :=
  Numeral.scale (.ofInt .double (style.decimal x).coefficient) (style.decimal x).exponent

/-- A magnitude under a sign; zero when there is none. -/
def signed (negative : Bool) : Except Fault Double → Double
  | .ok y => if negative then y.neg else y
  | .error _ => .ofInt .double 0

/-- The float that the text of a number is read as. -/
def reread (style : FloatStyle) (x : Binary F) : Double := signed x.negative (style.scaled x)

theorem reread_of_scaled {y : Double} (hy : style.scaled x = .ok y) :
    style.reread x = if x.negative then y.neg else y := by
  rw [reread, hy, signed]

-- Unfolded on a variable it is a term that takes long to compare.
attribute [irreducible] reread

/-- Whether the text of a number is read as a float. -/
def IsReadable (style : FloatStyle) (x : Binary F) : Prop :=
  ∃ numeral : Numeral, (style.text x).toList = numeral.text ∧ numeral.IsProper ∧
    ∃ h, numeral.value = .ok (.float (style.reread x) h)

theorem IsReadable.isFinite_reread (h : style.IsReadable x) :
    (style.reread x).isFinite = true := by
  obtain ⟨_, -, -, hfinite, -⟩ := h
  exact hfinite

theorem IsReadable.readNumber_text (h : style.IsReadable x) {rest : List Char}
    (hrest : Ends rest) : readNumber ((style.text x).toList ++ rest) =
      .ok (.float (style.reread x) h.isFinite_reread, rest) := by
  obtain ⟨numeral, htext, hproper, hfinite, hvalue⟩ := h
  have hread := hproper.spells_text.readNumber hvalue hrest
  rw [← htext] at hread
  exact hread

theorem Suits.isReadable_of_scaled (h : style.Suits F) (hx : x.isFinite = true)
    (hlt : (Decimal.shortest .even x).toRat < Numeral.overflow) {y : Double}
    (hy : style.scaled x = .ok y) : style.IsReadable x := by
  obtain ⟨numeral, hsign, htext, hfloat, hdecimal⟩ := exists_numeral style hx hlt
  have hword := h.coefficient_decimal_lt hx
  have hlow := h.exponent_decimal_ge x
  rw [← hdecimal] at hword hlow
  have hmagnitude := hfloat.magnitude_of_word hword hlow
  rw [hdecimal] at hmagnitude
  obtain ⟨hfinite, hvalue⟩ := hfloat.value_eq (hmagnitude.trans hy)
  simp only [hsign, ← reread_of_scaled hy] at hfinite hvalue
  exact ⟨numeral, htext, hfloat.toIsProper, hfinite, hvalue⟩

theorem Suits.exists_scaled (h : style.Suits F) (hx : x.isFinite = true)
    (hreach : (Decimal.shortest .even x).toRat ≤ Numeral.reach) :
    ∃ y, style.scaled x = .ok y := by
  refine Numeral.exists_scale (h.coefficient_decimal_lt hx) ?_
  change (style.decimal x).toRat ≤ Numeral.reach
  cases hzero : x.isZero with
  | true => simp [decimal, hzero, Decimal.toRat]
  | false => exact (toRat_decimal hzero).le.trans hreach

/-- The text of every finite number of 32 bits is read as a float. -/
theorem isReadable_single {x : Single} (hx : x.isFinite = true) : single.IsReadable x := by
  have hlt : (Decimal.shortest .even x).toRat < (2 ^ 128 : Nat) :=
    toRat_shortest_lt hx (by decide +kernel)
  have hreach : ((2 ^ 128 : Nat) : ℚ) ≤ Numeral.reach := by
    exact_mod_cast (by decide +kernel : 2 ^ 128 ≤ Numeral.reach)
  have hoverflow : ((2 ^ 128 : Nat) : ℚ) ≤ Numeral.overflow := by
    exact_mod_cast (by decide +kernel : 2 ^ 128 ≤ Numeral.overflow)
  obtain ⟨y, hy⟩ := suits_single.exists_scaled hx (hlt.le.trans hreach)
  exact suits_single.isReadable_of_scaled hx (hlt.trans_le hoverflow) hy

theorem exists_scaled_double {x : Double} (hx : x.isFinite = true) :
    ∃ y, double.scaled x = .ok y := by
  rcases (Nat.le_sub_one_of_lt (Binary.isFinite_iff.1 hx)).lt_or_eq with hless | hgreatest
  · refine suits_double.exists_scaled hx (le_of_lt ?_)
    exact Decimal.toRat_lt_of_toBinary (Decimal.toBinary_shortest hx .even)
      (hless.trans_le (by decide +kernel))
  · -- The decimal of the greatest float is out of reach, but its product is not.
    have hclosed : ∀ negative : Bool, (double.scaled
        (⟨negative, ⟨Format.double.infinity - 1, by decide⟩⟩ : Double)).toBool = true := by
      decide +kernel
    obtain ⟨negative, pattern⟩ := x
    obtain rfl : pattern = ⟨Format.double.infinity - 1, by decide⟩ := Fin.ext hgreatest
    specialize hclosed negative
    cases hresult : double.scaled
        (⟨negative, ⟨Format.double.infinity - 1, by decide⟩⟩ : Double) with
    | error fault =>
      rw [hresult] at hclosed
      cases hclosed
    | ok y => exact ⟨y, rfl⟩

/-- The text of every finite number of 64 bits is read as a float. -/
theorem isReadable_double {x : Double} (hx : x.isFinite = true) : double.IsReadable x := by
  obtain ⟨y, hy⟩ := exists_scaled_double hx
  exact suits_double.isReadable_of_scaled hx (toRat_shortest_lt hx (by decide +kernel)) hy

/-- Where the notation changes, and the least positive float. -/
example : double.text (.ofRatio .double false 1 100000) = "0.00001" ∧
    double.text (.ofRatio .double false 1 1000000) = "1e-6" ∧
    double.text (.ofBits .double 1) = "5e-324" := by
  decide +kernel

/-- Floats that are written with few digits: without the point they are a significand, and the power
of ten that puts the point in its place is a float. -/
def IsShort (x : Double) : Prop :=
  (double.decimal x).coefficient < 2 ^ 53 ∧ -22 ≤ (double.decimal x).exponent ∧
    (double.decimal x).exponent ≤ 22

instance : DecidablePred IsShort := fun _ => inferInstanceAs (Decidable (_ ∧ _))

/-- A float that is written with few digits is read back. -/
theorem IsShort.reread_eq {x : Double} (hshort : IsShort x) (hx : x.isFinite = true) :
    double.reread x = x := by
  obtain ⟨hword, hlow, hhigh⟩ := hshort
  have hscaled : double.scaled x = .ok ((double.decimal x).toBinary .double false) :=
    Numeral.scale_of_small hword hlow hhigh
  have hexact : (double.decimal x).toBinary .double x.negative = x := toBinary_decimal hx
  rw [reread_of_scaled hscaled]
  cases hsign : x.negative with
  | false =>
    rw [hsign] at hexact
    exact hexact
  | true =>
    rw [hsign] at hexact
    exact hexact

end FloatStyle

end Json

end CellularShader
