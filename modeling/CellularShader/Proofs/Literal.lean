/- # What a literal denotes

The literal of an integer denotes that integer, and the literal of a finite number, read in the
format that the number is in, denotes exactly that number. A number with a fractional part is never
written without a point, since an integer is read as a number without one.
-/

import CellularShader.Proofs.Decimal.Reading
import Mathlib.Data.Rat.Lemmas
import Mathlib.Tactic.FieldSimp

namespace CellularShader

/-- Text that starts with a digit and goes on with digits and points. -/
structure IsNumber (text : List Char) : Prop where
  head : ∃ c rest, text = c :: rest ∧ c.isDigit = true
  all : ∀ c ∈ text, c.isDigit = true ∨ c = '.'

instance : DecidablePred IsNumber := fun text =>
  decidable_of_iff
    (text.head?.any Char.isDigit = true ∧ text.all (fun c => c.isDigit || c = '.') = true) <| by
      simp only [List.all_eq_true, Bool.or_eq_true, decide_eq_true_eq]
      constructor
      · rintro ⟨hhead, hall⟩
        cases text with
        | nil => simp at hhead
        | cons c rest => exact ⟨⟨c, rest, rfl, hhead⟩, hall⟩
      · rintro ⟨⟨c, rest, rfl, hc⟩, hall⟩
        exact ⟨hc, hall⟩

theorem IsDigits.isNumber {ds : List Char} (hds : IsDigits ds) (hne : ds ≠ []) : IsNumber ds where
  head := by
    cases ds with
    | nil => exact absurd rfl hne
    | cons c rest => exact ⟨c, rest, rfl, hds c List.mem_cons_self⟩
  all c hc := Or.inl (hds c hc)

theorem IsDigits.isNumber_point {whole fraction : List Char} (hwhole : IsDigits whole)
    (hne : whole ≠ []) (hfraction : IsDigits fraction) : IsNumber (whole ++ '.' :: fraction) where
  head := by
    obtain ⟨c, rest, rfl, hc⟩ := (hwhole.isNumber hne).head
    exact ⟨c, rest ++ '.' :: fraction, rfl, hc⟩
  all c hc := by
    rcases List.mem_append.1 hc with hc | hc
    · exact Or.inl (hwhole c hc)
    · rcases List.mem_cons.1 hc with rfl | hc
      · exact Or.inr rfl
      · exact Or.inl (hfraction c hc)

theorem IsDigits.point_not_mem {ds : List Char} (hds : IsDigits ds) : '.' ∉ ds :=
  fun h => absurd (hds _ h) (by decide)

/-- A number with or without a minus sign. -/
inductive IsSigned : List Char → Prop
  | plain {digits : List Char} (h : IsNumber digits) : IsSigned digits
  | minus {digits : List Char} (h : IsNumber digits) : IsSigned ('-' :: digits)

namespace Glsl.Value

variable {F : Format}

theorem ofNumeral?_plain {text : String} {digits : List Char} (htext : text.toList = digits)
    (hdigits : IsNumber digits) : ofNumeral? F text = ofSigned? F false digits := by
  obtain ⟨c, rest, rfl, hc⟩ := hdigits.head
  have hminus : c ≠ '-' := by
    rintro rfl
    exact absurd hc (by decide)
  rw [ofNumeral?, htext]
  split
  case h_1 hcons => exact absurd (List.cons.inj hcons).1 hminus
  case h_2 => rfl

theorem ofNumeral?_minus {text : String} {digits : List Char}
    (htext : text.toList = '-' :: digits) : ofNumeral? F text = ofSigned? F true digits := by
  rw [ofNumeral?, htext]
  rfl

end Glsl.Value

namespace Literal

open Glsl

/-! ## Integers -/

/-- Digits without a leading zero are decimal, and so is zero. -/
theorem natOfDigits?_toDigits (n : Nat) : natOfDigits? (Nat.toDigits 10 n) = some n := by
  rcases n.eq_zero_or_pos with rfl | hpos
  · decide
  · have hhead := head?_toDigits_ne_zero hpos
    have hdigits : (Nat.toDigits 10 n).all Char.isDigit = true :=
      List.all_eq_true.2 (isDigits_toDigits n)
    have hvalue := Nat.ofDigitChars_ten_toDigits (n := n)
    have hne := Nat.toDigits_ne_nil (n := n) (b := 10)
    generalize Nat.toDigits 10 n = digits at *
    unfold natOfDigits?
    split
    · exact absurd rfl hne
    · simp at hhead
    · rw [if_pos hdigits, hvalue]

example : natOfDigits? "10".toList = some 10 ∧ natOfDigits? "010".toList = some 8 := by decide

theorem toList_ofInt_ofNat (m : Nat) : (ofInt (.ofNat m)).toList = Nat.toDigits 10 m := by
  simp [ofInt, Int.repr]

theorem toList_ofInt_negSucc (m : Nat) :
    (ofInt (.negSucc m)).toList = '-' :: Nat.toDigits 10 (m + 1) := by
  simp [ofInt, Int.repr]

theorem isSigned_ofInt (n : Int) : IsSigned (ofInt n).toList := by
  cases n with
  | ofNat n =>
    rw [toList_ofInt_ofNat]
    exact .plain ((isDigits_toDigits n).isNumber Nat.toDigits_ne_nil)
  | negSucc n =>
    rw [toList_ofInt_negSucc]
    exact .minus ((isDigits_toDigits (n + 1)).isNumber Nat.toDigits_ne_nil)

theorem ofNumeral?_ofInt (F : Format) (n : Int) :
    Value.ofNumeral? F (ofInt n) = some (.int n) := by
  cases n with
  | ofNat n =>
    have hdigits := isDigits_toDigits n
    rw [Value.ofNumeral?_plain (toList_ofInt_ofNat n) (hdigits.isNumber Nat.toDigits_ne_nil)]
    simp [Value.ofSigned?, natOfDigits?_toDigits, hdigits.point_not_mem]
  | negSucc n =>
    have hdigits := isDigits_toDigits (n + 1)
    rw [Value.ofNumeral?_minus (toList_ofInt_negSucc n)]
    simp [Value.ofSigned?, natOfDigits?_toDigits, hdigits.point_not_mem, Int.negSucc_eq]

theorem ofInt_injective : Function.Injective ofInt := by
  intro m n h
  have hvalue := ofNumeral?_ofInt .double m
  rw [h, ofNumeral?_ofInt] at hvalue
  exact (Value.int.inj (Option.some.inj hvalue)).symm

/-! ## Floating-point numbers -/

variable {F : Format} {x : Binary F}

/-- A decimal without places is a whole number, and so is what it is read as. -/
theorem exponent_shortest_neg (hx : x.isFinite = true) (hwhole : x.isWhole = false) (tie : Tie) :
    (Decimal.shortest tie x).exponent < 0 := by
  by_contra hnonneg
  have hreads := Decimal.toBinary_shortest hx tie
  have hone : Decimal.scaleDown (Decimal.shortest tie x).exponent = 1 := by
    rw [Decimal.scaleDown, show (-(Decimal.shortest tie x).exponent).toNat = 0 by omega]
  rw [Decimal.toBinary, hone] at hreads
  have := Binary.isWhole_ofRatio_one (F := F) _ _ (hreads.symm ▸ hx)
  rw [hreads, hwhole] at this
  exact absurd this (by decide)

/-- The digits of a magnitude, and the decimal that they denote: a whole number is denoted exactly,
any other number by a decimal that is read as the number. -/
theorem ofMagnitude_spec (hx : x.isFinite = true) : ∃ d,
    IsNumber (ofMagnitude x).toList ∧ Decimal.ofText? (ofMagnitude x).toList = some d ∧
      ((x.isWhole = true ∧ '.' ∉ (ofMagnitude x).toList ∧
          natOfDigits? (ofMagnitude x).toList = some d.coefficient ∧
          d.coefficient * 2 ^ F.unitScale = x.units) ∨
        (x.isWhole = false ∧ '.' ∈ (ofMagnitude x).toList ∧ d.toBinary F x.negative = x)) := by
  cases hwhole : x.isWhole with
  | true =>
    have hdvd : 2 ^ F.unitScale ∣ x.units := by
      simpa [Binary.isWhole, hx, Nat.dvd_iff_mod_eq_zero] using hwhole
    have hdigits := isDigits_toDigits (x.units / 2 ^ F.unitScale)
    refine ⟨⟨Nat.ofDigitChars 10 (Nat.toDigits 10 (x.units / 2 ^ F.unitScale)) 0, 0⟩, ?_⟩
    simp only [ofMagnitude, hwhole, if_true, Nat.pow_eq, Nat.toList_repr]
    refine ⟨hdigits.isNumber Nat.toDigits_ne_nil,
      Decimal.ofText?_digits hdigits Nat.toDigits_ne_nil,
      Or.inl ⟨trivial, hdigits.point_not_mem, ?_, ?_⟩⟩
    · rw [natOfDigits?_toDigits, Nat.ofDigitChars_ten_toDigits]
    · rw [Nat.ofDigitChars_ten_toDigits, Nat.div_mul_cancel hdvd]
  | false =>
    have hreads := Decimal.toBinary_shortest hx .up
    obtain ⟨whole, fraction, htext, hdigits, hne, hfraction, -, hvalue⟩ :=
      Decimal.positional_of_neg (exponent_shortest_neg hx hwhole .up)
    refine ⟨Decimal.shortest .up x, ?_⟩
    simp only [ofMagnitude, hwhole, Bool.false_eq_true, if_false, htext]
    exact ⟨hdigits.isNumber_point hne hfraction, hvalue, Or.inr ⟨trivial, by simp, hreads⟩⟩

/-- A number shows its sign unless it is zero. -/
theorem toList_ofBinary (hx : x.isFinite = true) : (ofBinary x).toList =
    if x.negative && !x.isZero then '-' :: (ofMagnitude x).toList
    else (ofMagnitude x).toList := by
  simp only [ofBinary, Binary.isNaN_of_isFinite hx, Bool.false_eq_true, if_false, hx, if_true]
  split <;> simp

theorem isSigned_ofBinary (hx : x.isFinite = true) : IsSigned (ofBinary x).toList := by
  obtain ⟨-, hnumber, -⟩ := ofMagnitude_spec hx
  rw [toList_ofBinary hx]
  split
  · exact .minus hnumber
  · exact .plain hnumber

theorem toRat_of_whole {n : Nat} (h : n * 2 ^ F.unitScale = x.units) :
    x.toRat = if x.negative then -(n : Rat) else n := by
  have hpos : (2 : Rat) ^ F.unitScale ≠ 0 := by positivity
  simp only [Binary.toRat, Binary.value, Rat.mkRat_eq_div, ← h, Nat.pow_eq]
  split <;> (push_cast; field_simp)

theorem units_of_isZero (hx : x.isZero = true) : x.units = 0 := by
  have hpattern : x.pattern.val = 0 := by simpa [Binary.isZero] using hx
  simp [Binary.units, hpattern]

theorem toRat_of_isZero (hx : x.isZero = true) : x.toRat = 0 := by
  simp [Binary.toRat, Binary.value, units_of_isZero hx]

/-- The literal of a finite number denotes the number. -/
theorem ofNumeral?_ofBinary (hx : x.isFinite = true) : ∃ v,
    Value.ofNumeral? F (ofBinary x) = some v ∧ v.toFloat? = some x.toRat := by
  obtain ⟨d, hnumber, hd, hcases⟩ := ofMagnitude_spec hx
  have hsigned (negative : Bool) (hsign : negative = x.negative ∨ x.isZero = true) : ∃ v,
      Value.ofSigned? F negative (ofMagnitude x).toList = some v ∧ v.toFloat? = some x.toRat := by
    -- Without a point the literal is an integer, which counts as the same number; with a point it
    -- is rounded to the format again.
    rcases hcases with ⟨-, hpoint, hnat, hvalue⟩ | ⟨hwhole, hpoint, hvalue⟩
    · refine ⟨.int (if negative then -d.coefficient else d.coefficient), ?_, ?_⟩
      · simp [Value.ofSigned?, hnat, hpoint]
      · rcases hsign with rfl | hzero
        · rw [toRat_of_whole hvalue]
          split <;> simp [Value.toFloat?, *]
        · have hcoefficient : d.coefficient = 0 := by
            simpa [units_of_isZero hzero] using hvalue
          simp [Value.toFloat?, toRat_of_isZero hzero, hcoefficient]
    · refine ⟨.float (d.toBinary F negative).toRat, by simp [Value.ofSigned?, hd, hpoint], ?_⟩
      rcases hsign with rfl | hzero
      · rw [hvalue]
        rfl
      · simp [Binary.isWhole, hx, units_of_isZero hzero] at hwhole
  have htext := toList_ofBinary hx
  -- Only a negative zero loses its sign, and zero is the same number with either sign.
  split at htext
  case isTrue hnegative =>
    rw [Value.ofNumeral?_minus htext]
    exact hsigned true (Or.inl (by simp_all))
  case isFalse hnegative =>
    rw [Value.ofNumeral?_plain htext hnumber]
    apply hsigned
    cases hx' : x.negative with
    | false => exact Or.inl rfl
    | true => exact Or.inr (by simpa [hx'] using hnegative)

end Literal

end CellularShader
