/- # Written decimals read back

Positional notation keeps the digits of a decimal in order, so reading it gives the decimal again.
The shortest decimal of a number is read as that number, because the search accepts nothing else and
ends at the exact value of the number.
-/

import CellularShader.Decimal
import CellularShader.Glsl.Semantics
import CellularShader.Proofs.Binary.Rounding
import Mathlib.Data.List.TakeDrop

namespace CellularShader

/-! ## Digits in text -/

/-- Text that consists of decimal digits. -/
def IsDigits (text : List Char) : Prop := ∀ c ∈ text, c.isDigit = true

theorem IsDigits.append {a b : List Char} (ha : IsDigits a) (hb : IsDigits b) :
    IsDigits (a ++ b) := by
  intro c hc
  rcases List.mem_append.1 hc with hc | hc
  · exact ha c hc
  · exact hb c hc

theorem isDigits_toDigits (n : Nat) : IsDigits (Nat.toDigits 10 n) :=
  fun _ hc => Nat.isDigit_of_mem_toDigits (by decide) (by decide) hc

theorem isDigits_zeros (n : Nat) : IsDigits (List.replicate n '0') := by
  intro c hc
  rw [List.eq_of_mem_replicate hc]
  rfl

/-- Digits are split off whole from a text that goes on with something else. -/
theorem IsDigits.span_append {ds rest : List Char} (hds : IsDigits ds)
    (hrest : ∀ c, rest.head? = some c → c.isDigit = false) :
    (ds ++ rest).span Char.isDigit = (ds, rest) := by
  rw [List.span_eq_takeWhile_dropWhile, List.takeWhile_append_of_pos hds,
    List.dropWhile_append_of_pos hds]
  cases rest with
  | nil => simp
  | cons c rest => simp [hrest c rfl]

/-- Digits before a point: no zero stands before other digits. -/
structure IsWhole (ds : List Char) : Prop where
  digits : IsDigits ds
  ne_nil : ds ≠ []
  zero_alone : ds.head? = some '0' → ds = ['0']

theorem head?_toDigits_ne_zero {n : Nat} (hn : 0 < n) : (Nat.toDigits 10 n).head? ≠ some '0' := by
  -- The leading digit is that of the tenth part, down to a single digit.
  induction n using Nat.strong_induction_on with
  | _ n ih =>
    by_cases hlt : n < 10
    · rw [Nat.toDigits_of_lt_base hlt]
      exact (by decide : ∀ d < 10, 0 < d → [Nat.digitChar d].head? ≠ some '0') n hlt hn
    · rw [Nat.toDigits_of_base_le (by decide) (by omega), List.head?_append]
      have hhead := ih (n / 10) (by omega) (by omega)
      cases hcase : (Nat.toDigits 10 (n / 10)).head? with
      | none => exact absurd (List.head?_eq_none_iff.1 hcase) Nat.toDigits_ne_nil
      | some c => simpa [hcase] using hhead

theorem isWhole_toDigits (n : Nat) : IsWhole (Nat.toDigits 10 n) where
  digits := isDigits_toDigits n
  ne_nil := Nat.toDigits_ne_nil
  zero_alone h := by
    rcases Nat.eq_zero_or_pos n with rfl | hn
    · exact Nat.toDigits_zero 10
    · exact absurd h (head?_toDigits_ne_zero hn)

theorem toDigits_of_isDigit {c : Char} (hc : c.isDigit = true) :
    Nat.toDigits 10 (c.toNat - '0'.toNat) = [c] := by
  obtain ⟨hlow, hhigh⟩ := Char.isDigit_iff_toNat.1 hc
  have hzero : '0'.toNat = 48 := rfl
  have hnine : '9'.toNat = 57 := rfl
  rw [Nat.toDigits_of_lt_base (by omega)]
  congr 1
  apply Char.toNat_inj.1
  rw [Nat.toNat_digitChar_of_lt_ten (by omega)]
  omega

/-- Digits behind those of a positive number are the last digits of a larger one. -/
theorem IsDigits.toDigits_append {cs : List Char} (hcs : IsDigits cs) {n : Nat} (hn : 0 < n) :
    Nat.toDigits 10 n ++ cs = Nat.toDigits 10 (Nat.ofDigitChars 10 cs n) := by
  induction cs generalizing n with
  | nil => simp
  | cons c cs ih =>
    have hc : c.isDigit = true := hcs c List.mem_cons_self
    have hnine : '9'.toNat - '0'.toNat < 10 := by decide
    have hlast : c.toNat - '0'.toNat < 10 := by
      have := (Char.isDigit_iff_toNat.1 hc).2
      omega
    have hstep := Nat.toDigits_append_toDigits (by decide) hn hlast
    calc Nat.toDigits 10 n ++ c :: cs
        = (Nat.toDigits 10 n ++ Nat.toDigits 10 (c.toNat - '0'.toNat)) ++ cs := by
          rw [toDigits_of_isDigit hc, List.append_assoc, List.singleton_append]
      _ = Nat.toDigits 10 (10 * n + (c.toNat - '0'.toNat)) ++ cs := by rw [hstep]
      _ = Nat.toDigits 10 (Nat.ofDigitChars 10 (c :: cs) n) := by
          rw [ih (fun d hd => hcs d (List.mem_cons_of_mem _ hd)) (by omega), Nat.ofDigitChars_cons]

/-- Digits without a leading zero are the digits of the number that they denote. -/
theorem IsWhole.toDigits_ofDigitChars {ds : List Char} (h : IsWhole ds) :
    Nat.toDigits 10 (Nat.ofDigitChars 10 ds 0) = ds := by
  by_cases hzero : ds.head? = some '0'
  · rw [h.zero_alone hzero]
    rfl
  · cases ds with
    | nil => exact absurd rfl h.ne_nil
    | cons c ds =>
      have hc : c.isDigit = true := h.digits c List.mem_cons_self
      -- The first digit is not zero, so the others are put behind a positive number.
      have hpos : 0 < c.toNat - '0'.toNat := by
        have hlow := (Char.isDigit_iff_toNat.1 hc).1
        have hne : c.toNat ≠ '0'.toNat := fun heq => hzero (by simpa using Char.toNat_inj.1 heq)
        omega
      rw [Nat.ofDigitChars_cons, Nat.mul_zero, Nat.zero_add,
        ← IsDigits.toDigits_append (fun d hd => h.digits d (List.mem_cons_of_mem _ hd)) hpos,
        toDigits_of_isDigit hc, List.singleton_append]

namespace Decimal

theorem ofText?_digits {ds : List Char} (hds : IsDigits ds) (hne : ds ≠ []) :
    ofText? ds = some ⟨Nat.ofDigitChars 10 ds 0, 0⟩ := by
  have hspan : (ds ++ []).span Char.isDigit = (ds, []) := hds.span_append (by simp)
  rw [List.append_nil] at hspan
  rw [ofText?, hspan]
  cases ds with
  | nil => exact absurd rfl hne
  | cons c ds => rfl

theorem ofText?_point {whole fraction : List Char} (hwhole : IsDigits whole)
    (hne : whole ≠ []) (hfraction : IsDigits fraction) :
    ofText? (whole ++ '.' :: fraction) =
      some ⟨Nat.ofDigitChars 10 (whole ++ fraction) 0, -fraction.length⟩ := by
  rw [ofText?, hwhole.span_append (by simp)]
  cases whole with
  | nil => exact absurd rfl hne
  | cons c whole =>
    have hall : fraction.all Char.isDigit = true := List.all_eq_true.2 hfraction
    simp [hall]

/-! ## Positional notation -/

theorem digits_ne_nil (d : Decimal) : d.digits ≠ [] := Nat.toDigits_ne_nil

theorem isDigits_digits (d : Decimal) : IsDigits d.digits := isDigits_toDigits _

theorem ofDigitChars_digits (d : Decimal) : Nat.ofDigitChars 10 d.digits 0 = d.coefficient :=
  Nat.ofDigitChars_ten_toDigits

theorem isWhole_digits (d : Decimal) : IsWhole d.digits := isWhole_toDigits _

/-- A decimal with places behind the point keeps all its digits, those before the point first. -/
theorem places_of_neg {d : Decimal} (h : d.exponent < 0) : ∃ whole fraction : List Char,
    d.places = (String.ofList whole, String.ofList fraction) ∧ IsWhole whole ∧
      IsDigits fraction ∧ (fraction.length : Int) = -d.exponent ∧
      Nat.ofDigitChars 10 (whole ++ fraction) 0 = d.coefficient := by
  simp only [places, if_neg (Int.not_le.2 h)]
  split
  case isTrue hlen =>
    -- Enough digits: the point is put between them. Otherwise zeros are put before them.
    generalize hsplit : d.digits.length - (-d.exponent).toNat = split
    refine ⟨d.digits.take split, d.digits.drop split, rfl, ⟨?_, ?_, ?_⟩, ?_, ?_, ?_⟩
    · exact fun c hc => d.isDigits_digits c (List.mem_of_mem_take hc)
    · rw [ne_eq, List.take_eq_nil_iff]
      rintro (hzero | hnil)
      · omega
      · exact d.digits_ne_nil hnil
    · -- A single zero has no digit to put before the point.
      intro hhead
      rw [List.head?_take, if_neg (by omega)] at hhead
      rw [d.isWhole_digits.zero_alone hhead, List.length_singleton] at hlen
      omega
    · exact fun c hc => d.isDigits_digits c (List.mem_of_mem_drop hc)
    · rw [List.length_drop]
      omega
    · rw [List.take_append_drop, ofDigitChars_digits]
  case isFalse hlen =>
    refine ⟨['0'], List.replicate ((-d.exponent).toNat - d.digits.length) '0' ++ d.digits, ?_,
      ⟨isDigits_zeros 1, by simp, fun _ => rfl⟩,
      (isDigits_zeros _).append d.isDigits_digits, ?_, ?_⟩
    · simp [zeros, String.ofList_append]
    · rw [List.length_append, List.length_replicate]
      omega
    · rw [Nat.ofDigitChars_append, Nat.ofDigitChars_append, Nat.ofDigitChars_replicate_zero]
      simpa [Nat.ofDigitChars_cons] using d.ofDigitChars_digits

/-- A decimal without places behind the point is written as a whole number. -/
theorem places_of_nonneg {d : Decimal} (h : 0 ≤ d.exponent) :
    d.places = (String.ofList (d.digits ++ List.replicate d.exponent.toNat '0'), "") := by
  simp [places, if_pos h, zeros, String.ofList_append]

theorem positional_of_neg {d : Decimal} (h : d.exponent < 0) : ∃ whole fraction : List Char,
    d.positional.toList = whole ++ '.' :: fraction ∧ IsDigits whole ∧ whole ≠ [] ∧
      IsDigits fraction ∧ fraction ≠ [] ∧ Decimal.ofText? (whole ++ '.' :: fraction) = some d := by
  obtain ⟨whole, fraction, hplaces, hwhole, hfraction, hlength, hvalue⟩ := places_of_neg h
  have hne : fraction ≠ [] := by
    rintro rfl
    simp only [List.length_nil] at hlength
    omega
  refine ⟨whole, fraction, ?_, hwhole.digits, hwhole.ne_nil, hfraction, hne, ?_⟩
  · have hnonempty : String.ofList fraction ≠ "" := by
      intro hempty
      exact hne (by simpa using congrArg String.toList hempty)
    simp [positional, hplaces, hnonempty]
  · rw [ofText?_point hwhole.digits hwhole.ne_nil hfraction, hvalue, hlength, Int.neg_neg]

/-! ## The shortest decimal -/

variable {F : Format}

theorem readsAs_of_onGrid? {tie : Tie} {x : Binary F} {exponent : Int} {d : Decimal}
    (h : onGrid? tie x exponent = some d) : d.readsAs x = true := by
  simp only [onGrid?] at h
  split at h
  case h_1 hbelow habove =>
    split at h <;> (cases h; assumption)
  case h_2 hbelow _ => cases h; exact hbelow
  case h_3 _ habove => cases h; exact habove
  case h_4 => cases h

theorem readsAs_searchGrids {x : Binary F} (hx : x.isFinite = true) (tie : Tie) (tries : Nat)
    (exponent : Int) : (searchGrids tie x tries exponent).readsAs x = true := by
  induction tries generalizing exponent with
  | zero =>
    -- The last resort is the exact value, which rounding keeps.
    rw [searchGrids, readsAs, toBinary, beq_iff_eq]
    apply Binary.ofRatio_eq_of_exact hx
    · exact Nat.pow_pos (by decide)
    · simp only [scaleUp, scaleDown, Nat.pow_eq, Int.neg_neg, Int.toNat_natCast,
        show (-(F.unitScale : Int)).toNat = 0 by omega, pow_zero, Nat.mul_one]
      rw [show (10 : Nat) = 5 * 2 from rfl, mul_pow]
      ring
  | succ tries ih =>
    rw [searchGrids]
    split
    case h_1 d hgrid => exact readsAs_of_onGrid? hgrid
    case h_2 => exact ih _

theorem toBinary_shortest {x : Binary F} (hx : x.isFinite = true) (tie : Tie) :
    (shortest tie x).toBinary F x.negative = x := by
  rw [shortest]
  exact beq_iff_eq.1 (readsAs_searchGrids hx tie _ _)

/-! ## Halves -/

theorem exponent_of_onGrid? {tie : Tie} {x : Binary F} {exponent : Int} {d : Decimal}
    (h : onGrid? tie x exponent = some d) : d.exponent = exponent := by
  simp only [onGrid?] at h
  split at h
  case h_1 => split at h <;> (cases h; rfl)
  case h_2 => cases h; rfl
  case h_3 => cases h; rfl
  case h_4 => cases h

/-- A number that lies on a grid is taken itself. -/
theorem onGrid?_of_exact {x : Binary F} (hx : x.isFinite = true) (tie : Tie) {exponent : Int}
    {c : Nat} (h : x.units * scaleDown exponent = c * (2 ^ F.unitScale * scaleUp exponent)) :
    onGrid? tie x exponent = some ⟨c, exponent⟩ := by
  have hup : 0 < scaleUp exponent := Nat.pow_pos (by decide)
  have hdown : 0 < scaleDown exponent := Nat.pow_pos (by decide)
  have hpos : 0 < 2 ^ F.unitScale * scaleUp exponent := Nat.mul_pos (Nat.two_pow_pos _) hup
  have hreads : readsAs x ⟨c, exponent⟩ = true := by
    rw [readsAs, toBinary, beq_iff_eq]
    refine Binary.ofRatio_eq_of_exact hx hdown ?_
    rw [h]
    ring
  simp only [onGrid?, Nat.pow_eq, h, Nat.mul_div_cancel _ hpos, Nat.mul_mod_left, hreads]
  -- Whether or not the point above would do as well, the exact one is nearer.
  cases readsAs x ⟨c + 1, exponent⟩ <;> simp [hpos]

/-- Whole points that read back as a small number are the number itself, and a half lies on the grid
of tenths, so the search for a half ends there at the latest and at an exact decimal. -/
theorem searchGrids_of_half {x : Binary F} (hx : x.isFinite = true) {m : Nat}
    (hhalf : 2 * x.units = m * 2 ^ F.unitScale)
    (hsmall : x.units ≤ 2 ^ F.fractionBits * 2 ^ F.unitScale) (tie : Tie) {tries : Nat}
    {exponent : Int} (hexponent : -1 ≤ exponent) (htries : exponent + 2 ≤ tries) :
    -1 ≤ (searchGrids tie x tries exponent).exponent ∧
      (searchGrids tie x tries exponent).coefficient *
          10 ^ ((searchGrids tie x tries exponent).exponent + 1).toNat = 5 * m := by
  induction tries generalizing exponent with
  | zero => omega
  | succ tries ih =>
    -- The grid of tenths has the half on it, so the search goes no further down.
    have htenths : onGrid? tie x (-1) = some ⟨5 * m, -1⟩ := by
      refine onGrid?_of_exact hx tie ?_
      have hdown : scaleDown (-1) = 10 := by decide
      have hup : scaleUp (-1) = 1 := by decide
      rw [hdown, hup]
      linarith
    rw [searchGrids]
    rcases hexponent.eq_or_lt with rfl | hnonneg
    · simp [htenths]
    split
    case h_1 d hgrid =>
      have hreads := readsAs_of_onGrid? hgrid
      have hexp := exponent_of_onGrid? hgrid
      obtain ⟨k, rfl⟩ : ∃ k : Nat, exponent = k := ⟨exponent.toNat, by omega⟩
      have hdown : scaleDown d.exponent = 1 := by simp [scaleDown, hexp]
      have hup : scaleUp d.exponent = 10 ^ k := by simp [scaleUp, hexp]
      rw [readsAs, beq_iff_eq, toBinary, hdown, hup] at hreads
      -- A whole decimal that reads as so small a number is that number.
      have hunits : x.units = d.coefficient * 10 ^ k * 2 ^ F.unitScale := by
        have := Binary.units_ofRatio_one (F := F) x.negative (hreads ▸ hx) (hreads ▸ hsmall)
        rwa [hreads] at this
      refine ⟨by omega, ?_⟩
      have hpos : 0 < 2 ^ F.unitScale := Nat.two_pow_pos _
      have hm : 2 * (d.coefficient * 10 ^ k) = m := by
        refine Nat.eq_of_mul_eq_mul_right hpos ?_
        rw [← hhalf, hunits]
        ring
      rw [hexp, show ((k : Int) + 1).toNat = k + 1 by omega, pow_succ, ← hm]
      ring
    case h_2 => exact ih (by omega) (by omega)

theorem shortest_of_half {x : Binary F} (hx : x.isFinite = true) (hscale : 2 ≤ F.unitScale)
    {m : Nat} (hpos : 0 < m) (hhalf : 2 * x.units = m * 2 ^ F.unitScale)
    (hsmall : x.units ≤ 2 ^ F.fractionBits * 2 ^ F.unitScale) (tie : Tie) :
    -1 ≤ (shortest tie x).exponent ∧
      (shortest tie x).coefficient * 10 ^ ((shortest tie x).exponent + 1).toNat = 5 * m := by
  -- The leading bit stands for one half or more, so the search starts at whole numbers.
  have hlog : F.unitScale ≤ x.units.log2 + 1 := by
    have hunits : 2 ^ (F.unitScale - 1) ≤ x.units := by
      have hsplit : 2 ^ F.unitScale = 2 * 2 ^ (F.unitScale - 1) := by
        rw [← pow_succ', Nat.sub_add_cancel (by omega)]
      have := Nat.le_mul_of_pos_left (2 ^ F.unitScale) hpos
      omega
    have hne : x.units ≠ 0 := by
      have := Nat.two_pow_pos (F.unitScale - 1)
      omega
    have := (Nat.le_log2 hne).2 hunits
    omega
  have hstart : 0 ≤ coarseExponent (x.units.log2 + 1 - F.unitScale) := by
    rw [coarseExponent, if_pos (by omega)]
    omega
  rw [shortest]
  exact searchGrids_of_half hx hhalf hsmall tie (by omega) (by omega)

end Decimal

end CellularShader
