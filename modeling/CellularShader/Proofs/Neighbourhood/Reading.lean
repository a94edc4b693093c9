/- # Offsets read back

Offsets of finite components are read from their text, each component as its own text is read.

The shortest decimal of a small multiple of one half is the number itself, with one place behind the
point. Its digits without the point fit into a word, and the word and its tenth have few enough bits
to be kept by every rounding on the way back: to 64 bits, through the division, and to 32 bits. So
offsets of small halves are read back as they are.
-/

import CellularShader.Configuration
import CellularShader.Proofs.Binary.Nearest
import CellularShader.Proofs.Json.Nesting
import CellularShader.Proofs.Literal
import CellularShader.Proofs.Neighbourhood.Tally
import Mathlib.Algebra.Order.Field.Basic

namespace CellularShader

open Json (Blank Ends FloatStyle Listed Numeral ReadAs Written)

/-- A multiple of one half of magnitude at most `2 ^ 23`. -/
def Binary.IsSmallHalf (x : Single) : Prop :=
  x.isFinite = true ∧ |x.toRat| ≤ 2 ^ 23 ∧ ∃ m : Int, x.toRat = m / 2

namespace Binary

variable {F : Format} {x : Binary F}

theorem IsSmallHalf.exists_halves {x : Single} (hx : x.IsSmallHalf) :
    ∃ m : Nat, 2 * x.units = m * 2 ^ Format.single.unitScale ∧ m ≤ 2 ^ 24 := by
  obtain ⟨-, hsmall, m, hm⟩ := hx
  have hpos : (0 : Rat) < 2 ^ Format.single.unitScale := by positivity
  have habs : (x.units : Rat) / 2 ^ Format.single.unitScale = m.natAbs / 2 := by
    rw [← abs_toRat, hm, abs_div, Nat.cast_natAbs]
    simp
  refine ⟨m.natAbs, ?_, ?_⟩
  · field_simp at habs
    have : ((2 * x.units : Nat) : Rat) = (m.natAbs * 2 ^ Format.single.unitScale : Nat) := by
      push_cast
      linarith
    exact_mod_cast this
  · rw [abs_toRat, habs, div_le_iff₀ (by norm_num)] at hsmall
    have : (m.natAbs : Rat) ≤ (2 ^ 24 : Nat) := hsmall.trans (by norm_num)
    exact_mod_cast this

end Binary

/-! ## Halves in text -/

theorem Decimal.withPlace_of_tenths {d : Decimal} (h : -1 ≤ d.exponent) :
    d.withPlace = ⟨d.coefficient * 10 ^ (d.exponent + 1).toNat, -1⟩ := by
  rw [withPlace]
  split_ifs with hnonneg
  · rfl
  · have hplace : d.exponent = -1 := by omega
    calc d = ⟨d.coefficient, d.exponent⟩ := rfl
      _ = _ := by simp [hplace]

theorem Decimal.magnitude_le {d : Decimal} (hexponent : -1 ≤ d.exponent) {bound : Nat}
    (hpos : 0 < d.coefficient)
    (h : d.coefficient * 10 ^ (d.exponent + 1).toNat < 10 ^ (bound + 2)) :
    d.magnitude ≤ bound := by
  generalize hplaces : (d.exponent + 1).toNat = places at h
  have hlt : places < bound + 2 := by
    have : 10 ^ places < 10 ^ (bound + 2) :=
      (Nat.le_mul_of_pos_left _ hpos).trans_lt h
    exact (Nat.pow_lt_pow_iff_right (by decide)).1 this
  -- The places take up as many digits of the bound.
  have hlength : d.digits.length ≤ bound + 2 - places := by
    rw [digits, Nat.length_toDigits_le_iff (by decide) (by omega)]
    have hsplit : 10 ^ (bound + 2) = 10 ^ (bound + 2 - places) * 10 ^ places := by
      rw [← pow_add, Nat.sub_add_cancel hlt.le]
    exact Nat.lt_of_mul_lt_mul_right (hsplit ▸ h)
  rw [magnitude]
  omega

theorem Binary.isZero_iff_of_half {F : Format} {x : Binary F} {m : Nat}
    (hhalf : 2 * x.units = m * 2 ^ F.unitScale) : x.isZero = true ↔ m = 0 := by
  have hpos : 0 < 2 ^ F.unitScale := Nat.two_pow_pos _
  rw [← units_eq_zero_iff]
  constructor
  · intro hunits
    rw [hunits] at hhalf
    exact (Nat.mul_eq_zero.1 hhalf.symm).resolve_right hpos.ne'
  · rintro rfl
    omega

namespace Json.FloatStyle

variable {x : Single} {m : Nat}

/-- A small half is written in tenths. -/
theorem decimal_of_half (hx : x.isFinite = true)
    (hhalf : 2 * x.units = m * 2 ^ Format.single.unitScale) (hm : m ≤ 2 ^ 24) :
    single.decimal x = ⟨5 * m, -1⟩ := by
  -- Zero has no shortest decimal and is written out on its own.
  by_cases hzero : x.isZero = true
  · obtain rfl : m = 0 := (Binary.isZero_iff_of_half hhalf).1 hzero
    rw [decimal, if_pos hzero]
  · have hpos : 0 < m := Nat.pos_of_ne_zero fun h => hzero ((Binary.isZero_iff_of_half hhalf).2 h)
    have hsmall : x.units ≤ 2 ^ Format.single.fractionBits * 2 ^ Format.single.unitScale := by
      have := Nat.mul_le_mul_right (2 ^ Format.single.unitScale) hm
      have hdouble : 2 ^ 24 * 2 ^ Format.single.unitScale =
          2 * (2 ^ Format.single.fractionBits * 2 ^ Format.single.unitScale) := by
        rw [show Format.single.fractionBits = 23 from rfl]
        ring
      omega
    obtain ⟨hexponent, hvalue⟩ := Decimal.shortest_of_half hx (by decide) hpos hhalf hsmall .even
    simp only [decimal, if_neg hzero]
    generalize Decimal.shortest .even x = d at *
    have hcoefficient : 0 < d.coefficient := by
      by_contra hnot
      rw [Nat.eq_zero_of_not_pos hnot, Nat.zero_mul] at hvalue
      omega
    have hupper : d.magnitude ≤ (12 : Nat) := by
      refine Decimal.magnitude_le hexponent hcoefficient ?_
      rw [hvalue]
      omega
    have hlower : -1 ≤ d.magnitude := by
      have := List.length_pos_iff.2 d.digits_ne_nil
      rw [Decimal.magnitude]
      omega
    -- Between these magnitudes no exponent is written.
    have hrange : single.least ≤ d.magnitude ∧ d.magnitude ≤ single.greatest := by
      rw [show single.least = -6 from rfl, show single.greatest = 12 from rfl]
      omega
    rw [if_pos hrange, Decimal.withPlace_of_tenths hexponent, hvalue]

/-- Tenths that make up halves are read without loss. -/
theorem units_reread_of_half (hx : x.isFinite = true)
    (hhalf : 2 * x.units = m * 2 ^ Format.single.unitScale) (hm : m ≤ 2 ^ 24) :
    (single.reread x).negative = x.negative ∧
      2 * (single.reread x).units = m * 2 ^ Format.double.unitScale := by
  have hscale : Numeral.scale (.ofInt .double (5 * m : Nat)) (-1) =
      .ok (Decimal.toBinary .double false ⟨5 * m, -1⟩) :=
    Numeral.scale_of_small (by omega) (by decide) (by decide)
  have hscaled : single.scaled x = .ok (Decimal.toBinary .double false ⟨5 * m, -1⟩) := by
    rw [scaled, decimal_of_half hx hhalf hm]
    exact hscale
  have hunits : 2 * (Decimal.toBinary .double false ⟨5 * m, -1⟩).units =
      m * 2 ^ Format.double.unitScale := by
    have hsplit : 2 ^ Format.double.unitScale = 2 * 2 ^ (Format.double.unitScale - 1) := by
      rw [← pow_succ', Nat.sub_add_cancel (by decide)]
    have hexact : 5 * m * 1 * 2 ^ Format.double.unitScale =
        m * 2 ^ (Format.double.unitScale - 1) * 10 := by
      rw [hsplit]
      ring
    have hfits := Numeral.units_ofRatio_double false (by decide) hexact (by omega) (Nat.sub_le _ _)
    change 2 * (Binary.ofRatio .double false (5 * m * 1) 10).units = _
    rw [hfits, hsplit]
    ring
  rw [reread_of_scaled hscaled]
  cases x.negative with
  | false => exact ⟨rfl, hunits⟩
  | true => exact ⟨rfl, hunits⟩

end Json.FloatStyle

/-! ## Offsets -/

theorem Binary.IsSmallHalf.convert_eq {x : Single} (hx : x.isFinite = true) {m : Nat} {y : Double}
    (hhalf : 2 * x.units = m * 2 ^ Format.single.unitScale) (hsign : y.negative = x.negative)
    (hunits : 2 * y.units = m * 2 ^ Format.double.unitScale) : y.convert .single = x := by
  -- Both numbers are the same halves, and those are a magnitude of the narrower format.
  rw [Binary.convert, hsign]
  rw [Nat.pow_eq]
  refine Binary.ofRatio_eq_of_exact hx (Nat.pow_pos Nat.two_pos) ?_
  refine Nat.eq_of_mul_eq_mul_left (by decide : 0 < 2) ?_
  rw [← Nat.mul_assoc, ← Nat.mul_assoc, hunits, hhalf]
  ring

namespace Offset

theorem readComponent_skipBlanks (text : List Char) :
    readComponent (Json.skipBlanks text) = readComponent text := by
  rw [readComponent, readComponent, Json.skipBlanks_idem]

theorem readComponent_number {c : Char} (hc : (c = '-' || c.isDigit) = true) (rest : List Char) :
    readComponent (c :: rest) = (component <$> Json.readNumber) (c :: rest) := by
  have hskip : Json.skipBlanks (c :: rest) = c :: rest :=
    Json.skipBlanks_append Json.blank_nil (Json.isBlank_of_starts_number hc) rest
  simp only [readComponent, hskip, if_pos hc]

/-- The component that the text of a component is read as. -/
def rereadComponent (x : Single) : Single := (FloatStyle.single.reread x).convert .single

theorem readAs_component {x : Single} (hx : x.isFinite = true) :
    ReadAs readComponent (FloatStyle.single.text x).toList (rereadComponent x) := by
  have hreadable := FloatStyle.isReadable_single hx
  obtain ⟨c, tail, hstart, hc⟩ := hreadable.starts_text
  have hclose : c ≠ ']' := by
    rintro rfl
    exact absurd hc (by decide)
  rw [hstart]
  refine .of_skips readComponent_skipBlanks (Json.isBlank_of_starts_number hc) hclose ?_
  intro rest hrest
  have hnumber := hreadable.readNumber_text hrest
  rw [hstart, List.cons_append] at hnumber
  rw [readComponent_number hc, Json.Reader.map_of_ok hnumber]
  rfl

/-- A small half is read back as it is. -/
theorem rereadComponent_of_half {x : Single} (hx : x.IsSmallHalf) : rereadComponent x = x := by
  obtain ⟨m, hhalf, hm⟩ := hx.exists_halves
  obtain ⟨hsign, hunits⟩ := FloatStyle.units_reread_of_half hx.1 hhalf hm
  exact Binary.IsSmallHalf.convert_eq hx.1 hhalf hsign hunits

/-- The offset that the text of an offset is read as. -/
def reread (o : Offset) : Offset :=
  ⟨rereadComponent o.x, rereadComponent o.y, rereadComponent o.z⟩

/-- An offset whose components are small halves. -/
def IsSmallHalf (o : Offset) : Prop := o.x.IsSmallHalf ∧ o.y.IsSmallHalf ∧ o.z.IsSmallHalf

theorem IsSmallHalf.isFinite {o : Offset} (ho : o.IsSmallHalf) : o.IsFinite :=
  ⟨ho.1.1, ho.2.1.1, ho.2.2.1⟩

theorem IsSmallHalf.reread_eq {o : Offset} (ho : o.IsSmallHalf) : o.reread = o := by
  rw [reread, rereadComponent_of_half ho.1, rereadComponent_of_half ho.2.1,
    rereadComponent_of_half ho.2.2]

theorem readComponentAt_of_next (position : Nat) {text element rest : List Char} {x : Single}
    (hnext : Json.nextElement (position = 0) text = .ok (true, element ++ rest))
    (hread : ReadAs readComponent element x) (hrest : Ends rest) :
    readComponentAt position text = .ok (x, rest) := by
  rw [readComponentAt, Json.Reader.bind_of_ok hnext, if_pos rfl]
  exact hread.ok hrest

theorem readComponents_listed {tx ty tz inside : List Char} (h : Listed [tx, ty, tz] inside)
    {o : Offset} (hx : ReadAs readComponent tx o.x) (hy : ReadAs readComponent ty o.y)
    (hz : ReadAs readComponent tz o.z) (rest : List Char) :
    readComponents (inside ++ ']' :: rest) = .ok (o, rest) := by
  -- Each component leaves the text that the next one is taken from.
  obtain ⟨afterX, hafterX, hnextX⟩ := h.nextElement hx.starts
  obtain ⟨afterY, hafterY, hnextY⟩ := hafterX.nextElement hy.starts
  obtain ⟨afterZ, hafterZ, hnextZ⟩ := hafterY.nextElement hz.starts
  obtain ⟨hgap⟩ := hafterZ
  have hclose : Json.endsValue ']' = true := rfl
  rw [readComponents,
    Json.Reader.bind_of_ok (readComponentAt_of_next 0 (hnextX _) hx (hafterX.ends hclose rest)),
    Json.Reader.bind_of_ok (readComponentAt_of_next 1 (hnextY _) hy (hafterY.ends hclose rest)),
    Json.Reader.bind_of_ok
      (readComponentAt_of_next 2 (hnextZ _) hz ((Json.Following.done hgap).ends hclose rest)),
    Json.Reader.bind_of_ok (Json.closeList_append hgap rest)]
  rfl

theorem read_skipBlanks (text : List Char) : read (Json.skipBlanks text) = read text := by
  rw [read, read, Json.skipBlanks_idem]

/-- In every layout, an offset of finite components is read, each as its own text is read. -/
theorem IsFinite.readAs {o : Offset} (ho : o.IsFinite) {text : List Char}
    (h : Written o.document text) : ReadAs read text o.reread := by
  obtain ⟨hx, hy, hz⟩ := ho
  have hdocument {x : Single} (hx : x.isFinite = true) :
      FloatStyle.single.document x = .number (FloatStyle.single.text x) := if_pos hx
  rw [document, hdocument hx, hdocument hy, hdocument hz] at h
  match h with
  | .array (.cons (.number _) (.cons (.number _) (.cons (.number _) .nil))) hinside =>
    refine .of_skips read_skipBlanks rfl (by decide) fun rest _ => ?_
    rw [List.append_assoc]
    exact readComponents_listed hinside (readAs_component hx) (readAs_component hy)
      (readAs_component hz) rest

end Offset

namespace Neighbourhood

theorem equals_self {n : Neighbourhood} (hn : ∀ o ∈ n, o.IsSmallHalf) : n.equals n = true := by
  induction n with
  | nil => rfl
  | cons o n ih =>
    obtain ⟨hx, hy, hz⟩ := hn o List.mem_cons_self
    have ho : o.equals o = true := by
      simp [Offset.equals, Binary.equals_self hx.1, Binary.equals_self hy.1,
        Binary.equals_self hz.1]
    rw [equals, ho, ih fun p hp => hn p (List.mem_cons_of_mem _ hp)]
    rfl

theorem read_skipBlanks (text : List Char) : read (Json.skipBlanks text) = read text := by
  rw [read, read, Json.skipBlanks_idem]

/-- The offsets that the text of offsets is read as. -/
def reread (n : Neighbourhood) : Neighbourhood := n.map Offset.reread

theorem reread_eq {n : Neighbourhood} (hn : ∀ o ∈ n, o.IsSmallHalf) : reread n = n := by
  rw [reread, List.map_congr_left fun o ho => (hn o ho).reread_eq, List.map_id']

/-- In every layout, offsets of finite components are read in their order. -/
theorem readAs {n : Neighbourhood} (hn : ∀ o ∈ n, o.IsFinite) {text : List Char}
    (h : Written n.document text) : ReadAs read text (reread n) := by
  cases h with
  | array helements hinside =>
    refine .of_skips read_skipBlanks rfl (by decide) fun rest _ => ?_
    rw [List.append_assoc]
    exact Json.readList_listed hinside
      (helements.forall₂ fun o ho text htext => (hn o ho).readAs htext) rest

end Neighbourhood

end CellularShader
