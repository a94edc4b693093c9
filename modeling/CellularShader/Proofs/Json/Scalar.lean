/- # Numerals read back

What stands behind a value never continues it: inside brackets it is followed by a blank, a comma or
a closing bracket. Under that condition a numeral is taken apart into the digits it was written
with. An exponent can be written in several ways. Otherwise a numeral has one text, and only from
its texts is it read.
-/

import CellularShader.Proofs.Decimal.Reading
import CellularShader.Proofs.Json.Spelling

namespace CellularShader

namespace Json

/-! ## Reading a piece of text -/

/-- The characters that end the value before them. -/
def endsValue (c : Char) : Bool := isBlank c || c = ',' || c = ']' || c = '}'

/-- Text that does not continue a value before it. -/
def Ends (rest : List Char) : Prop := ∀ c, rest.head? = some c → endsValue c = true

theorem ends_nil : Ends [] := by simp [Ends]

theorem ends_cons {c : Char} (hc : endsValue c = true) (rest : List Char) : Ends (c :: rest) := by
  simpa [Ends] using hc

theorem Blank.ends {gap : List Char} (h : Blank gap) : Ends gap := by
  intro c hc
  simp [endsValue, h c (List.mem_of_head? hc)]

theorem Ends.not_digit {rest : List Char} (h : Ends rest) (c : Char) (hc : rest.head? = some c) :
    c.isDigit = false := by
  have hends := h c hc
  simp only [endsValue, isBlank, Bool.or_eq_true, decide_eq_true_eq] at hends
  rcases hends with (((((rfl | rfl) | rfl) | rfl) | rfl) | rfl) | rfl <;> rfl

theorem Ends.ne_cons {rest : List Char} (h : Ends rest) {c : Char} (hc : endsValue c = false)
    (tail : List Char) : rest ≠ c :: tail := by
  rintro rfl
  exact absurd (h c rfl) (by simp [hc])

theorem skipBlanks_append {gap : List Char} (hgap : Blank gap) {c : Char}
    (hc : isBlank c = false) (rest : List Char) : skipBlanks (gap ++ c :: rest) = c :: rest := by
  rw [skipBlanks, List.dropWhile_append_of_pos hgap]
  simp [hc]

/-! ## Numerals -/

namespace Numeral

theorem someDigits_append {ds rest : List Char} (hds : IsDigits ds) (hne : ds ≠ [])
    (hrest : ∀ c, rest.head? = some c → c.isDigit = false) :
    someDigits (ds ++ rest) = .ok (ds, rest) := by
  rw [someDigits, digits, hds.span_append hrest]
  cases ds with
  | nil => exact absurd rfl hne
  | cons c ds => rfl

theorem readWhole_append {ds rest : List Char} (hds : IsWhole ds)
    (hrest : ∀ c, rest.head? = some c → c.isDigit = false) :
    readWhole (ds ++ rest) = .ok (ds, rest) := by
  -- A leading zero is read on its own, and it stands alone.
  by_cases hzero : ds.head? = some '0'
  · rw [hds.zero_alone hzero]
    cases rest with
    | nil => rfl
    | cons c rest => simp [readWhole, hrest c rfl]
  · have hsome : readWhole (ds ++ rest) = someDigits (ds ++ rest) := by
      rw [readWhole]
      intro c tail heq
      cases ds with
      | nil => exact hds.ne_nil rfl
      | cons d ds => exact hzero (by simpa using (List.cons.inj heq).1)
    rw [hsome, someDigits_append hds.digits hds.ne_nil hrest]

/-- A numeral without an exponent, as it is written. -/
def plainText (negative : Bool) (whole fraction : List Char) : List Char :=
  (if negative then ['-'] else []) ++ whole ++ if fraction = [] then [] else '.' :: fraction

theorem starts_plainText (negative : Bool) {whole : List Char} (hwhole : IsWhole whole)
    (fraction : List Char) : ∃ c tail,
    plainText negative whole fraction = c :: tail ∧ (c = '-' || c.isDigit) = true := by
  cases negative with
  | true => exact ⟨'-', _, rfl, rfl⟩
  | false =>
    cases hw : whole with
    | nil => exact absurd hw hwhole.ne_nil
    | cons c ds => exact ⟨c, _, rfl, by simp [hwhole.digits c (by simp [hw])]⟩

theorem readSign_append (negative : Bool) {text : List Char} (htext : ∀ rest, text ≠ '-' :: rest) :
    readSign ((if negative then ['-'] else []) ++ text) = .ok (negative, text) := by
  cases negative with
  | true => rfl
  | false =>
    rw [if_neg (by decide), List.nil_append, readSign]
    exact htext

theorem readFraction_append {fraction rest : List Char} (hfraction : IsDigits fraction)
    (hdigit : ∀ c, rest.head? = some c → c.isDigit = false) (hpoint : ∀ tail, rest ≠ '.' :: tail) :
    readFraction ((if fraction = [] then [] else '.' :: fraction) ++ rest) =
      .ok (fraction, rest) := by
  by_cases hnil : fraction = []
  · rw [hnil, if_pos rfl, List.nil_append, readFraction]
    exact hpoint
  · rw [if_neg hnil]
    exact someDigits_append hfraction hnil hdigit

/-- The ways to write an exponent: after a small or a capital letter, and with or without a plus. -/
inductive SpellsExponent : List Char → Option (Bool × List Char) → Prop
  | none : SpellsExponent [] none
  | unsigned {mark : Char} (hmark : mark = 'e' ∨ mark = 'E') (ds : List Char) :
      SpellsExponent (mark :: ds) (some (false, ds))
  | signed {mark : Char} (hmark : mark = 'e' ∨ mark = 'E') (negative : Bool) (ds : List Char) :
      SpellsExponent (mark :: (if negative then '-' else '+') :: ds) (some (negative, ds))

theorem readExponentDigits_of_sign {text ds rest : List Char} {negative : Bool}
    (hsign : readExponentSign text = .ok (negative, ds ++ rest)) (hds : IsDigits ds) (hne : ds ≠ [])
    (hrest : Ends rest) : readExponentDigits text = .ok ((negative, ds), rest) := by
  rw [readExponentDigits, Reader.bind_of_ok hsign,
    Reader.bind_of_ok (someDigits_append hds hne hrest.not_digit)]
  rfl

theorem readExponentSign_append {ds : List Char} (hds : IsDigits ds) (hne : ds ≠ [])
    (rest : List Char) : readExponentSign (ds ++ rest) = .ok (false, ds ++ rest) := by
  cases ds with
  | nil => exact absurd rfl hne
  | cons d ds =>
    -- A digit is not taken for a sign.
    have hd : d.isDigit = true := hds d List.mem_cons_self
    rw [List.cons_append, readExponentSign]
    all_goals
      rintro tail heq
      rw [(List.cons.inj heq).1] at hd
      exact absurd hd (by decide)

theorem readExponent_mark {mark : Char} (hmark : mark = 'e' ∨ mark = 'E') {text rest : List Char}
    {exponent : Bool × List Char} (h : readExponentDigits text = .ok (exponent, rest)) :
    readExponent (mark :: text) = .ok (some exponent, rest) := by
  rcases hmark with rfl | rfl
  · exact Reader.map_of_ok h some
  · exact Reader.map_of_ok h some

theorem SpellsExponent.readExponent {text : List Char} {exponent : Option (Bool × List Char)}
    (h : SpellsExponent text exponent) (hexponent : ∀ e ∈ exponent, IsDigits e.2 ∧ e.2 ≠ [])
    {rest : List Char} (hrest : Ends rest) :
    Numeral.readExponent (text ++ rest) = .ok (exponent, rest) := by
  cases h with
  | none =>
    rw [List.nil_append, Numeral.readExponent]
    · exact hrest.ne_cons rfl
    · exact hrest.ne_cons rfl
  | unsigned hmark ds =>
    obtain ⟨hdigits, hne⟩ := hexponent _ rfl
    have hsign := readExponentSign_append hdigits hne rest
    exact readExponent_mark hmark (readExponentDigits_of_sign hsign hdigits hne hrest)
  | signed hmark negative ds =>
    obtain ⟨hdigits, hne⟩ := hexponent _ rfl
    have hsign : readExponentSign ((if negative then '-' else '+') :: (ds ++ rest)) =
        .ok (negative, ds ++ rest) := by
      cases negative <;> rfl
    exact readExponent_mark hmark (readExponentDigits_of_sign hsign hdigits hne hrest)

/-- Numerals that consist of digits, with some before the point and in the exponent. -/
structure IsProper (numeral : Numeral) : Prop where
  whole : IsWhole numeral.whole
  fraction : IsDigits numeral.fraction
  exponent : ∀ e ∈ numeral.exponent, IsDigits e.2 ∧ e.2 ≠ []

/-- The texts of a numeral. -/
inductive Spells : List Char → Numeral → Prop
  | mk {numeral : Numeral} {exponent : List Char} (hproper : numeral.IsProper)
      (hexponent : SpellsExponent exponent numeral.exponent) :
      Spells (plainText numeral.negative numeral.whole numeral.fraction ++ exponent) numeral

theorem Spells.starts {text : List Char} {numeral : Numeral} (h : Spells text numeral) :
    ∃ c tail, text = c :: tail ∧ (c = '-' || c.isDigit) = true := by
  obtain @⟨_, exponent, hproper, -⟩ := h
  obtain ⟨c, tail, htext, hc⟩ := starts_plainText numeral.negative hproper.whole numeral.fraction
  exact ⟨c, tail ++ exponent, by rw [htext, List.cons_append], hc⟩

/-- A numeral is taken apart into its sign, digits and exponent. -/
theorem Spells.read {text : List Char} {numeral : Numeral} (h : Spells text numeral)
    {rest : List Char} (hrest : Ends rest) : Numeral.read (text ++ rest) = .ok (numeral, rest) := by
  obtain @⟨_, written, ⟨hwhole, hfraction, hdigits⟩, hexponent⟩ := h
  obtain ⟨negative, whole, fraction, exponent⟩ := numeral
  -- Digits come next, so the sign is read as it was written.
  have hminus (more tail : List Char) : whole ++ more ≠ '-' :: tail := by
    intro heq
    cases hw : whole with
    | nil => exact hwhole.ne_nil hw
    | cons c ds =>
      have hc := hwhole.digits c (by simp [hw])
      rw [hw] at heq
      rw [(List.cons.inj heq).1] at hc
      exact absurd hc (by decide)
  -- Neither the mark of the exponent nor the end is mistaken for more digits or a point.
  have hmark {mark : Char} (h : mark = 'e' ∨ mark = 'E') : mark.isDigit = false ∧ mark ≠ '.' := by
    rcases h with rfl | rfl <;> decide
  have hends : ∀ c, (written ++ rest).head? = some c → c.isDigit = false ∧ c ≠ '.' := by
    intro c hc
    cases hexponent with
    | none =>
      refine ⟨hrest.not_digit c hc, ?_⟩
      rintro rfl
      exact absurd (hrest _ hc) (by decide)
    | unsigned h =>
      cases hc
      exact hmark h
    | signed h =>
      cases hc
      exact hmark h
  have hpoint : ∀ c, ((if fraction = [] then [] else '.' :: fraction) ++
      (written ++ rest)).head? = some c → c.isDigit = false := by
    by_cases hnil : fraction = []
    · simpa [hnil] using fun c hc => (hends c hc).1
    · simp [hnil]
  rw [plainText, List.append_assoc, List.append_assoc, List.append_assoc, Numeral.read,
    Reader.bind_of_ok (readSign_append negative (hminus _)),
    Reader.bind_of_ok (readWhole_append hwhole hpoint),
    Reader.bind_of_ok (readFraction_append hfraction (fun c hc => (hends c hc).1)
      fun tail heq => (hends '.' (by rw [heq]; rfl)).2 rfl),
    Reader.bind_of_ok (hexponent.readExponent hdigits hrest)]
  rfl

/-! ### The written form -/

/-- An exponent as it is written, always with its sign. -/
def exponentText : Option (Bool × List Char) → List Char
  | none => []
  | some (negative, ds) => 'e' :: (if negative then '-' else '+') :: ds

/-- A numeral as it is written. -/
def text (numeral : Numeral) : List Char :=
  plainText numeral.negative numeral.whole numeral.fraction ++ exponentText numeral.exponent

theorem IsProper.spells_text {numeral : Numeral} (h : numeral.IsProper) :
    Spells numeral.text numeral := by
  refine .mk h ?_
  cases numeral.exponent with
  | none => exact .none
  | some exponent => exact .signed (.inl rfl) exponent.1 exponent.2

theorem IsProper.starts_text {numeral : Numeral} (h : numeral.IsProper) : ∃ c tail,
    numeral.text = c :: tail ∧ (c = '-' || c.isDigit) = true :=
  h.spells_text.starts

theorem spells_plainText (negative : Bool) {whole fraction : List Char} (hwhole : IsWhole whole)
    (hfraction : IsDigits fraction) :
    Spells (plainText negative whole fraction) ⟨negative, whole, fraction, none⟩ := by
  have hproper : IsProper ⟨negative, whole, fraction, none⟩ := ⟨hwhole, hfraction, by simp⟩
  simpa using Spells.mk hproper .none

theorem Spells.eq_plainText {text : List Char} {numeral : Numeral} (h : Spells text numeral)
    (hfraction : numeral.fraction = []) (hexponent : numeral.exponent = none) :
    text = plainText numeral.negative numeral.whole [] ∧ IsWhole numeral.whole := by
  obtain ⟨hproper, hspells⟩ := h
  rw [hexponent] at hspells
  cases hspells
  rw [hfraction, List.append_nil]
  exact ⟨rfl, hproper.whole⟩

/-! ### Numerals as they were written -/

variable {text rest ds : List Char}

theorem someDigits_eq_ok (h : someDigits text = .ok (ds, rest)) :
    text = ds ++ rest ∧ IsDigits ds ∧ ds ≠ [] := by
  have hsplit : text.takeWhile Char.isDigit ++ text.dropWhile Char.isDigit = text :=
    List.takeWhile_append_dropWhile
  have hdigits : IsDigits (text.takeWhile Char.isDigit) := List.all_eq_true.1 List.all_takeWhile
  rw [someDigits, digits, List.span_eq_takeWhile_dropWhile] at h
  split at h
  case h_1 => cases h
  case h_2 hne heq =>
    cases h
    cases heq
    exact ⟨hsplit.symm, hdigits, hne⟩

theorem readWhole_eq_ok (h : readWhole text = .ok (ds, rest)) : text = ds ++ rest ∧ IsWhole ds := by
  unfold readWhole at h
  split at h
  case h_1 c tail =>
    split at h
    · cases h
    · cases h
      exact ⟨rfl, isWhole_toDigits 0⟩
  case h_2 hzero =>
    obtain ⟨rfl, hdigits, hne⟩ := someDigits_eq_ok h
    refine ⟨rfl, hdigits, hne, fun hhead => ?_⟩
    -- A zero before anything else was the case above.
    obtain ⟨tail, rfl⟩ := List.head?_eq_some_iff.1 hhead
    cases htail : tail ++ rest with
    | nil => rw [(List.append_eq_nil_iff.1 htail).1]
    | cons c more => exact absurd (congrArg (List.cons '0') htail) (hzero c more)

theorem readFraction_eq_ok (h : readFraction text = .ok (ds, rest)) :
    text = (if ds = [] then [] else '.' :: ds) ++ rest ∧ IsDigits ds := by
  unfold readFraction at h
  split at h
  · obtain ⟨rfl, hdigits, hne⟩ := someDigits_eq_ok h
    rw [if_neg hne]
    exact ⟨rfl, hdigits⟩
  · cases h
    exact ⟨rfl, by simp [IsDigits]⟩

theorem spellsExponent_of_mark {mark : Char} (hmark : mark = 'e' ∨ mark = 'E')
    {exponent : Option (Bool × List Char)}
    (h : (some <$> readExponentDigits) text = .ok (exponent, rest)) :
    ∃ written, SpellsExponent written exponent ∧ mark :: text = written ++ rest ∧
      ∀ e ∈ exponent, IsDigits e.2 ∧ e.2 ≠ [] := by
  obtain ⟨_, hread, rfl⟩ := Reader.exists_of_map_ok h
  obtain ⟨negative, afterSign, hsign, hread⟩ := Reader.exists_of_bind_ok hread
  obtain ⟨ds, _, hdigits, hpure⟩ := Reader.exists_of_bind_ok hread
  cases hpure
  obtain ⟨rfl, hds⟩ := someDigits_eq_ok hdigits
  have hproper : ∀ e ∈ some (negative, ds), IsDigits e.2 ∧ e.2 ≠ [] := by
    intro e he
    cases he
    exact hds
  -- A plus, a minus, or the digits at once.
  unfold readExponentSign at hsign
  split at hsign <;> cases hsign
  · exact ⟨_, .signed hmark false ds, rfl, hproper⟩
  · exact ⟨_, .signed hmark true ds, rfl, hproper⟩
  · exact ⟨_, .unsigned hmark ds, rfl, hproper⟩

theorem readExponent_eq_ok {exponent : Option (Bool × List Char)}
    (h : readExponent text = .ok (exponent, rest)) :
    ∃ written, SpellsExponent written exponent ∧ text = written ++ rest ∧
      ∀ e ∈ exponent, IsDigits e.2 ∧ e.2 ≠ [] := by
  unfold readExponent at h
  split at h
  · exact spellsExponent_of_mark (.inl rfl) h
  · exact spellsExponent_of_mark (.inr rfl) h
  · cases h
    exact ⟨[], .none, rfl, by simp⟩

theorem readSign_eq_ok {negative : Bool} (h : readSign text = .ok (negative, rest)) :
    text = (if negative then ['-'] else []) ++ rest := by
  unfold readSign at h
  split at h <;> cases h <;> rfl

/-- A numeral is read from its texts only. -/
theorem spells_of_read {numeral : Numeral} (h : read text = .ok (numeral, rest)) :
    ∃ written, Spells written numeral ∧ text = written ++ rest := by
  obtain ⟨negative, afterSign, hsignRead, h⟩ := Reader.exists_of_bind_ok h
  obtain ⟨whole, afterWhole, hwholeRead, h⟩ := Reader.exists_of_bind_ok h
  obtain ⟨fraction, afterFraction, hfractionRead, h⟩ := Reader.exists_of_bind_ok h
  obtain ⟨exponent, afterExponent, hexponentRead, h⟩ := Reader.exists_of_bind_ok h
  cases h
  obtain ⟨rfl, hwhole⟩ := readWhole_eq_ok hwholeRead
  obtain ⟨rfl, hfraction⟩ := readFraction_eq_ok hfractionRead
  obtain ⟨written, hspells, rfl, hexponent⟩ := readExponent_eq_ok hexponentRead
  refine ⟨_, .mk ⟨hwhole, hfraction, hexponent⟩ hspells, ?_⟩
  rw [readSign_eq_ok hsignRead]
  simp [plainText]

theorem integer?_eq_some {numeral : Numeral} {n : Int} (h : numeral.integer? = some n) :
    numeral.fraction = [] ∧ numeral.exponent = none ∧ numeral.negative = decide (n < 0) ∧
      natOfDigits numeral.whole = n.natAbs := by
  simp only [integer?] at h
  split_ifs at h with hplain hnegative hzero
  all_goals simp at hplain
  · obtain rfl := Option.some.inj h
    refine ⟨hplain.1, hplain.2, ?_, by simp⟩
    rw [hnegative]
    symm
    exact decide_eq_true (by omega)
  · obtain rfl := Option.some.inj h
    refine ⟨hplain.1, hplain.2, ?_, by simp⟩
    rw [Bool.eq_false_of_not_eq_true hnegative]
    symm
    exact decide_eq_false (by omega)

end Numeral

/-! ## Numbers -/

theorem Numeral.Spells.readNumber {text : List Char} {numeral : Numeral} {n : Number}
    (h : Spells text numeral) (hvalue : numeral.value = .ok n) {rest : List Char}
    (hrest : Ends rest) : Json.readNumber (text ++ rest) = .ok (n, rest) := by
  rw [Json.readNumber, Reader.bind_of_ok (h.read hrest)]
  exact Reader.lift_of_ok hvalue rest

theorem exists_of_readNumber {text rest : List Char} {n : Number}
    (h : readNumber text = .ok (n, rest)) : ∃ numeral written,
      Numeral.Spells written numeral ∧ numeral.value = .ok n ∧ text = written ++ rest := by
  obtain ⟨numeral, _, hread, hlift⟩ := Reader.exists_of_bind_ok h
  obtain ⟨hvalue, rfl⟩ := Reader.eq_of_lift_ok hlift
  obtain ⟨written, hspells, htext⟩ := Numeral.spells_of_read hread
  exact ⟨numeral, written, hspells, hvalue, htext⟩

theorem toList_repr_eq_plainText (n : Int) :
    n.repr.toList = Numeral.plainText (n < 0) (Nat.toDigits 10 n.natAbs) [] := by
  cases n with
  | ofNat n => simp [Int.repr, Numeral.plainText]
  | negSucc n => simp [Int.repr, Numeral.plainText, Int.negSucc_lt_zero]

theorem Numeral.integer?_of_digits (n : Int) :
    integer? ⟨n < 0, Nat.toDigits 10 n.natAbs, [], none⟩ = some n := by
  simp only [integer?, natOfDigits, Nat.ofDigitChars_ten_toDigits, List.isEmpty_nil,
    Option.isSome_none, Bool.not_true, Bool.or_false, Bool.false_eq_true, if_false,
    decide_eq_true_eq]
  split_ifs with hneg hzero
  · omega
  · rw [Int.ofNat_natAbs_of_nonpos hneg.le, Int.neg_neg]
  · rw [Int.natAbs_of_nonneg (by omega)]

theorem readNumber_integer {n : Int} (hn : IsWord n) {rest : List Char} (hrest : Ends rest) :
    readNumber (n.repr.toList ++ rest) = .ok (.integer n hn, rest) := by
  have hnone : IsDigits [] := by simp [IsDigits]
  have hspells := Numeral.spells_plainText (n < 0) (isWhole_toDigits n.natAbs) hnone
  have hvalue : Numeral.value ⟨n < 0, Nat.toDigits 10 n.natAbs, [], none⟩ =
      .ok (.integer n hn) := by
    rw [Numeral.value, Numeral.integer?_of_digits, Option.bind_some, Number.ofInt?, dif_pos hn]
  rw [toList_repr_eq_plainText, hspells.readNumber hvalue hrest]

theorem Number.ofInt?_eq_some {n : Int} {number : Number} (h : ofInt? n = some number) :
    ∃ hn, number = .integer n hn := by
  unfold ofInt? at h
  split_ifs at h with hn
  exact ⟨hn, (Option.some.inj h).symm⟩

theorem Number.ofDouble?_eq_some {x : Double} {number : Number} (h : ofDouble? x = some number) :
    ∃ hx, number = .float x hx := by
  unfold ofDouble? at h
  split_ifs at h with hx
  exact ⟨hx, (Option.some.inj h).symm⟩

/-- Only a numeral of digits alone has an integer for its value. -/
theorem Numeral.integer?_of_value {numeral : Numeral} {n : Int} {hn : IsWord n}
    (h : numeral.value = .ok (.integer n hn)) : numeral.integer? = some n := by
  rw [value] at h
  split at h
  case h_1 heq =>
    obtain ⟨m, hm, hword⟩ := Option.bind_eq_some_iff.1 heq
    obtain ⟨_, hnumber⟩ := Number.ofInt?_eq_some hword
    cases Except.ok.inj (hnumber ▸ h)
    exact hm
  case h_2 =>
    -- Any other value is a float.
    cases hmagnitude : numeral.magnitude with
    | error fault => simp [hmagnitude, bind, Except.bind] at h
    | ok x =>
      simp only [hmagnitude, bind, Except.bind] at h
      split at h
      case h_1 heq =>
        obtain ⟨_, hnumber⟩ := Number.ofDouble?_eq_some heq
        cases Except.ok.inj (hnumber ▸ h)
      case h_2 => cases h

/-- A number that is read as an integer is written by the digits of the integer. -/
theorem readNumber_eq_integer {text rest : List Char} {n : Int} {hn : IsWord n}
    (h : readNumber text = .ok (.integer n hn, rest)) : text = n.repr.toList ++ rest := by
  obtain ⟨numeral, written, hspells, hvalue, rfl⟩ := exists_of_readNumber h
  obtain ⟨hfraction, hexponent, hnegative, hwhole⟩ :=
    Numeral.integer?_eq_some (Numeral.integer?_of_value hvalue)
  obtain ⟨rfl, hcanonical⟩ := hspells.eq_plainText hfraction hexponent
  rw [toList_repr_eq_plainText, hnegative, ← hwhole, Numeral.natOfDigits,
    hcanonical.toDigits_ofDigitChars]

end Json

end CellularShader
