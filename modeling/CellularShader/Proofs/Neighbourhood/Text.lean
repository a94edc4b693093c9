/- # The offsets in the text of a tally

A tally has one line for each offset. No line has a break in it, so the text shows its lines, and no
literal has a comma in it, so a line shows its three literals. A literal shows its number up to the
sign of zero, and of what is no number it shows just that. The text of a tally therefore shows the
offsets one by one and in order.
-/

import CellularShader.Neighbourhood.Tally
import CellularShader.Proofs.Literal.Faithful

namespace CellularShader

open Glsl

/-! ## Literals -/

namespace Binary

variable {F : Format} {x y : Binary F}

/-- Numerically equal, or both not a number. -/
def Same (x y : Binary F) : Prop := x.equals y = true ∨ x.isNaN = true ∧ y.isNaN = true

theorem equals_iff_index (hx : x.isNaN = false) (hy : y.isNaN = false) :
    x.equals y = true ↔ x.index = y.index := by
  rw [equals_iff, and_iff_right hx, and_iff_right hy, le_antisymm_iff, le_antisymm_iff, ← not_lt,
    ← not_lt, ← not_lt, ← not_lt, value_lt_iff, value_lt_iff]

theorem natAbs_index (x : Binary F) : x.index.natAbs = x.pattern.val := by
  rw [index]
  split <;> simp

/-- A number is never the same as one of another kind. -/
theorem Same.isFinite_eq (h : x.Same y) : x.isFinite = y.isFinite := by
  rcases h with h | ⟨hx, hy⟩
  · obtain ⟨hx, hy, -⟩ := equals_iff.1 h
    have hpattern : x.pattern.val = y.pattern.val := by
      rw [← natAbs_index, ← natAbs_index, (equals_iff_index hx hy).1 h]
    rw [isFinite, isFinite, hpattern]
  · have hnone {z : Binary F} (hz : z.isNaN = true) : z.isFinite = false := by
      rw [← Bool.not_eq_true]
      intro hfinite
      rw [isNaN_of_isFinite hfinite] at hz
      cases hz
    rw [hnone hx, hnone hy]

theorem pattern_of_infinite (hfinite : x.isFinite = false) (hnumber : x.isNaN = false) :
    x.pattern.val = F.infinity := by
  simp only [isFinite, isNaN, decide_eq_false_iff_not] at hfinite hnumber
  omega

end Binary

namespace Literal

variable {F : Format} {x y : Binary F}

theorem ofBinary_of_isNaN (h : x.isNaN = true) : ofBinary x = "NaN" := by
  rw [ofBinary, if_pos h]

theorem ofBinary_of_infinite (hF : 0 < F.infinity) (hfinite : x.isFinite = false)
    (hnumber : x.isNaN = false) : ofBinary x = if x.negative then "-inf" else "inf" := by
  have hzero : x.isZero = false := by
    rw [Binary.isZero, Binary.pattern_of_infinite hfinite hnumber]
    simpa using hF.ne'
  simp only [ofBinary, hnumber, hfinite, hzero, Bool.false_eq_true, if_false, Bool.not_false,
    Bool.and_true]
  split <;> rfl

/-- A finite number is written without letters. -/
theorem mem_ofBinary_of_isFinite (hx : x.isFinite = true) {c : Char}
    (hc : c ∈ (ofBinary x).toList) : c.isDigit = true ∨ c = '.' ∨ c = '-' := by
  have hnumber {digits : List Char} (h : IsNumber digits) (hc : c ∈ digits) :
      c.isDigit = true ∨ c = '.' ∨ c = '-' :=
    (h.all c hc).imp_right .inl
  generalize htext : (ofBinary x).toList = text at hc
  have hsigned : IsSigned text := htext ▸ isSigned_ofBinary hx
  cases hsigned with
  | plain h => exact hnumber h hc
  | minus h =>
    rcases List.mem_cons.1 hc with rfl | hc
    · exact .inr (.inr rfl)
    · exact hnumber h hc

/-- What is not finite is written with one. -/
theorem exists_letter_of_not_isFinite (hF : 0 < F.infinity) (hx : x.isFinite = false) :
    ∃ c ∈ (ofBinary x).toList, ¬(c.isDigit = true ∨ c = '.' ∨ c = '-') := by
  cases hnan : x.isNaN with
  | true =>
    rw [ofBinary_of_isNaN hnan]
    exact ⟨'N', by decide, by decide⟩
  | false =>
    rw [ofBinary_of_infinite hF hx hnan]
    refine ⟨'n', ?_, by decide⟩
    split <;> decide

theorem isFinite_eq_of_ofBinary_eq (hF : 0 < F.infinity) (h : ofBinary x = ofBinary y) :
    x.isFinite = y.isFinite := by
  have hclash {x y : Binary F} (h : ofBinary x = ofBinary y) (hx : x.isFinite = true) :
      y.isFinite = true := by
    by_contra hy
    obtain ⟨c, hc, hletter⟩ := exists_letter_of_not_isFinite hF (Bool.eq_false_of_not_eq_true hy)
    exact hletter (mem_ofBinary_of_isFinite hx (h ▸ hc))
  exact Bool.eq_iff_iff.2 ⟨hclash h, hclash h.symm⟩

theorem ofBinary_eq_iff_of_infinite (hF : 0 < F.infinity) (hx : x.isFinite = false)
    (hy : y.isFinite = false) : ofBinary x = ofBinary y ↔ x.Same y := by
  cases hxnan : x.isNaN with
  | true =>
    cases hynan : y.isNaN with
    | true => simp [ofBinary_of_isNaN hxnan, ofBinary_of_isNaN hynan, Binary.Same, hxnan, hynan]
    | false =>
      rw [ofBinary_of_isNaN hxnan, ofBinary_of_infinite hF hy hynan, Binary.Same, Binary.equals_iff]
      cases y.negative <;> simp [hxnan, hynan]
  | false =>
    cases hynan : y.isNaN with
    | true =>
      rw [ofBinary_of_isNaN hynan, ofBinary_of_infinite hF hx hxnan, Binary.Same, Binary.equals_iff]
      cases x.negative <;> simp [hxnan, hynan]
    | false =>
      -- Two infinities differ in nothing but the sign, which shows in both.
      rw [ofBinary_of_infinite hF hx hxnan, ofBinary_of_infinite hF hy hynan, Binary.Same,
        Binary.equals_iff_index hxnan hynan, Binary.index, Binary.index,
        Binary.pattern_of_infinite hx hxnan, Binary.pattern_of_infinite hy hynan]
      cases x.negative <;> cases y.negative <;> simp [hxnan] <;> omega

/-- Literals are the same text exactly for numbers that are the same. -/
theorem ofBinary_eq_iff_same (hF : 0 < F.infinity) : ofBinary x = ofBinary y ↔ x.Same y := by
  by_cases hkind : x.isFinite = y.isFinite
  · cases hx : x.isFinite with
    | true =>
      have hy : y.isFinite = true := hkind ▸ hx
      rw [ofBinary_eq_iff hx hy, Binary.Same, Binary.isNaN_of_isFinite hx]
      simp
    | false => exact ofBinary_eq_iff_of_infinite hF hx (hkind ▸ hx)
  · exact ⟨fun h => absurd (isFinite_eq_of_ofBinary_eq hF h) hkind,
      fun h => absurd h.isFinite_eq hkind⟩

/-- No literal has a mark in it that could end it. -/
theorem not_mem_ofBinary (x : Binary F) {c : Char} (hc : c ∈ [',', '\n']) :
    c ∉ (ofBinary x).toList := by
  have hmark : c = ',' ∨ c = '\n' := by simpa using hc
  cases hx : x.isFinite with
  | true =>
    intro hmem
    have hdigit := mem_ofBinary_of_isFinite hx hmem
    rcases hmark with rfl | rfl
    · exact absurd hdigit (by decide)
    · exact absurd hdigit (by decide)
  | false =>
    -- The words for what is not finite are compared one by one.
    simp only [ofBinary, hx, Bool.false_eq_true, if_false]
    rcases hmark with rfl | rfl
    · split_ifs <;> decide
    · split_ifs <;> decide

end Literal

/-! ## Lines -/

/-- Joined pieces are told apart by a separator that is in none of them. -/
theorem Text.eq_of_intercalate_eq {c : Char} {a b : List (List Char)} (ha : ∀ l ∈ a, c ∉ l)
    (hb : ∀ l ∈ b, c ∉ l) (hne : a ≠ []) (hne' : b ≠ [])
    (h : [c].intercalate a = [c].intercalate b) : a = b := by
  rw [← List.splitOn_intercalate c ha hne, h, List.splitOn_intercalate c hb hne']

namespace Offset

/-- Offsets with the same components. -/
def Same (a b : Offset) : Prop := a.x.Same b.x ∧ a.y.Same b.y ∧ a.z.Same b.z

/-- The components as they are written between the parentheses of a vector. -/
def literals (o : Offset) : List Char :=
  [','].intercalate [(Literal.ofBinary o.x).toList, ' ' :: (Literal.ofBinary o.y).toList,
    ' ' :: (Literal.ofBinary o.z).toList]

theorem toList_text_vector (o : Offset) :
    o.vector.text.toList = "vec3(".toList ++ o.literals ++ [')'] := by
  simp [vector, Expr.text, Expr.texts, Expr.float, literals]

theorem literals_eq_iff {a b : Offset} : a.literals = b.literals ↔ a.Same b := by
  have hinfinity : 0 < Format.single.infinity := by decide
  have hpieces (o : Offset) : ∀ piece ∈ [(Literal.ofBinary o.x).toList,
      ' ' :: (Literal.ofBinary o.y).toList, ' ' :: (Literal.ofBinary o.z).toList],
      ',' ∉ piece := by
    simp [Literal.not_mem_ofBinary]
  simp only [Same, ← Literal.ofBinary_eq_iff_same hinfinity]
  constructor
  · intro h
    have hparts := Text.eq_of_intercalate_eq (hpieces a) (hpieces b) (List.cons_ne_nil _ _)
      (List.cons_ne_nil _ _) h
    simpa [String.toList_inj] using hparts
  · rintro ⟨hx, hy, hz⟩
    rw [literals, literals, hx, hy, hz]

end Offset

namespace Tally

variable {t : Tally}

/-- The line that counts the neighbour at an offset. -/
def line (t : Tally) (o : Offset) : String :=
  "  sum += " ++ (Expr.choice (t.counts (sample o)) (.int 1) (.int 0)).text ++ ";"

theorem lines_step (t : Tally) (o : Offset) (layout : Layout) :
    (t.step o).lines layout = [t.line o] := rfl

/-- Every line of a tally has the same text before the components and the same behind them. -/
theorem exists_line_eq (t : Tally) : ∃ before after, '\n' ∉ before ∧ '\n' ∉ after ∧
    ∀ o, (t.line o).toList = before ++ o.literals ++ after := by
  have hone : (Expr.int 1).text = "1" := rfl
  have hzero : (Expr.int 0).text = "0" := rfl
  have hsample (o : Offset) : (sample o).text.toList =
      "getVoxel(currentPos, ".toList ++ o.vector.text.toList ++ [')'] := by
    simp [sample, Expr.text, Expr.texts]
  cases t with
  | live =>
    refine ⟨"  sum += getVoxel(currentPos, vec3(".toList, ")) > 0 ? 1 : 0;".toList,
      by decide, by decide, fun o => ?_⟩
    simp [line, counts, Expr.text, hone, hzero, hsample, Comparison.text, Offset.toList_text_vector]
  | matching =>
    refine ⟨"  sum += getVoxel(currentPos, vec3(".toList, ")) == desiredValue ? 1 : 0;".toList,
      by decide, by decide, fun o => ?_⟩
    simp [line, counts, Expr.text, hone, hzero, hsample, Comparison.text, Offset.toList_text_vector]

theorem line_eq_iff {a b : Offset} : t.line a = t.line b ↔ a.Same b := by
  obtain ⟨before, after, -, -, hline⟩ := exists_line_eq t
  rw [← String.toList_inj, hline, hline, List.append_cancel_right_eq, List.append_cancel_left_eq,
    Offset.literals_eq_iff]

theorem break_not_mem_line (t : Tally) (o : Offset) : '\n' ∉ (t.line o).toList := by
  obtain ⟨before, after, hbefore, hafter, hline⟩ := exists_line_eq t
  have hliterals : '\n' ∉ o.literals := by
    simp [Offset.literals, Literal.not_mem_ofBinary]
  rw [hline, List.mem_append, List.mem_append]
  exact not_or_intro (not_or_intro hbefore hliterals) hafter

/-! ## Routines -/

/-- The lines before those of the offsets. -/
def opening (t : Tally) : List String :=
  [(t.routine []).signature { afterName := true } ++ " \x7b", "  int sum = 0;", ""]

/-- The lines behind them. -/
def closing : List String := ["", "  return sum;", "\x7d"]

theorem text_eq_intercalate (t : Tally) (nb : Neighbourhood) :
    t.text nb = "\n".intercalate (t.opening ++ nb.map t.line ++ closing) := by
  have hsteps : (nb.map t.step).flatMap (Stmt.lines { afterName := true }) = nb.map t.line := by
    rw [List.flatMap_map, List.map_eq_flatMap]
    simp only [lines_step]
  have hbody : (t.routine nb).bodyLines { afterName := true } =
      ["  int sum = 0;", ""] ++ nb.map t.line ++ ["", "  return sum;"] := by
    simp only [Routine.bodyLines, routine, List.map_cons, List.map_nil, hsteps,
      List.intercalate_cons_cons, List.intercalate_singleton, List.append_assoc]
    rfl
  rw [text, Routine.text, hbody, closing, opening]
  simp [Routine.signature, routine]

theorem break_not_mem (t : Tally) (nb : Neighbourhood) :
    ∀ line ∈ t.opening ++ nb.map t.line ++ closing, '\n' ∉ line.toList := by
  have hopening : ∀ line ∈ t.opening, '\n' ∉ line.toList := by cases t <;> decide
  have hclosing : ∀ line ∈ closing, '\n' ∉ line.toList := by decide
  intro line hline
  rcases List.mem_append.1 hline with hline | hline
  · rcases List.mem_append.1 hline with hline | hline
    · exact hopening line hline
    · obtain ⟨o, -, rfl⟩ := List.mem_map.1 hline
      exact break_not_mem_line t o
  · exact hclosing line hline

/-- Tallies with the same text have the same lines. -/
theorem map_line_eq_of_text_eq {a b : Neighbourhood} (h : t.text a = t.text b) :
    a.map t.line = b.map t.line := by
  have hbreak (nb : Neighbourhood) :
      ∀ l ∈ (t.opening ++ nb.map t.line ++ closing).map String.toList, '\n' ∉ l := by
    intro l hl
    obtain ⟨line, hline, rfl⟩ := List.mem_map.1 hl
    exact break_not_mem t nb line hline
  have hne (nb : Neighbourhood) :
      (t.opening ++ nb.map t.line ++ closing).map String.toList ≠ [] := by
    simp [opening]
  rw [text_eq_intercalate, text_eq_intercalate, ← String.toList_inj, String.toList_intercalate,
    String.toList_intercalate] at h
  -- The frame around the lines of the offsets is the same in both.
  have hlines := Text.eq_of_intercalate_eq (hbreak a) (hbreak b) (hne a) (hne b) h
  rwa [List.map_inj_right fun _ _ => String.toList_inj.1, List.append_cancel_right_eq,
    List.append_cancel_left_eq] at hlines

/-- The text of a tally shows its offsets: two neighbourhoods have the same text exactly when they
have the same offsets, one by one. -/
theorem text_eq_iff_same (t : Tally) (a b : Neighbourhood) :
    t.text a = t.text b ↔ List.Forall₂ Offset.Same a b := by
  have hlines : a.map t.line = b.map t.line ↔ List.Forall₂ Offset.Same a b := by
    rw [← List.forall₂_eq_eq_eq, List.forall₂_map_left_iff, List.forall₂_map_right_iff]
    simp only [line_eq_iff]
  rw [← hlines]
  constructor
  · exact map_line_eq_of_text_eq
  · intro h
    rw [text_eq_intercalate, text_eq_intercalate, h]

end Tally

end CellularShader
