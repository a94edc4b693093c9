/- # Tests of counts as text

The text of a test is read back as the test, alone and behind `&&`. So what a test decides about a
count can be said of its text: the test of a list holds for the counts in the list, and the test of
chances holds for a count that is certain or whose draw falls below its chance.
-/

import CellularShader.Proofs.Count.Cover
import CellularShader.Proofs.Glsl.Loading

namespace CellularShader

namespace Glsl

open Token (isWord)

/-- Words that can name a variable. The two truth values are words of their own. -/
def IsIdentifier (name : String) : Prop :=
  isWord name.toList = true ∧ name ≠ "true" ∧ name ≠ "false"

instance : DecidablePred IsIdentifier := fun _ => inferInstanceAs (Decidable (_ ∧ _))

theorem IsIdentifier.lookup_eq_values {name : String} (h : IsIdentifier name) (env : Environment) :
    env.lookup name = env.values name :=
  env.lookup_eq_values h.2.1 h.2.2

theorem IsIdentifier.lookup_assign {name : String} (h : IsIdentifier name) (env : Environment)
    (value : Value) : (env.assign name value).lookup name = some value := by
  rw [h.lookup_eq_values, env.values_assign_self]

namespace Expr

variable {env : Environment} {left e : Expr} {outcome : Bool}

/-! ## Conditions as text -/

theorem Decides.holds? (h : Decides env .double e outcome) : e.holds? env = some outcome := by
  rw [Decides] at h
  simp [Expr.holds?, Expr.value, h]

/-- The operands that an expression adds to a chain of `&&`. -/
def operands : Expr → List Expr
  | all es => es
  | e => [e]

/-- A chain of `&&` with one operand more at its end. -/
def andThen (left e : Expr) : Expr := all (left.operands ++ [e])

/-- What stands before `&&` is a chain of operands that bind tighter. -/
theorem Fits.operands (h : left.Fits .conjunction) :
    left.operands ≠ [] ∧ ∀ o ∈ left.operands, o.Fits .equality := by
  have hone {o : Expr} (ho : o.Fits .equality) : [o] ≠ [] ∧ ∀ p ∈ [o], p.Fits .equality :=
    ⟨by simp, by simpa using ho⟩
  cases h with
  | all _ several each =>
    exact ⟨List.ne_nil_of_length_pos (Nat.lt_of_lt_of_le Nat.zero_lt_two several), each⟩
  | any loose => exact absurd loose (by decide)
  | name word => exact hone (.name word)
  | numeral signed => exact hone (.numeral signed)
  | component word selectorWord => exact hone (.component word selectorWord)
  | element word => exact hone (.element word)
  | call word each => exact hone (.call word each)
  | paren fits => exact hone (.paren fits)
  | @arith _ operator _ _ _ leftFits rightFits =>
    exact hone (.arith (by cases operator <;> decide) leftFits rightFits)
  | @compare _ operator _ _ _ leftFits rightFits =>
    exact hone (.compare (by cases operator <;> decide) leftFits rightFits)

theorem Fits.andThen (hleft : left.Fits .conjunction) (he : e.Fits .equality) :
    (left.andThen e).Fits .choice := by
  obtain ⟨hne, hoperands⟩ := hleft.operands
  refine .all (by decide) ?_ fun o ho => ?_
  · have := List.length_pos_iff.2 hne
    simp only [List.length_append, List.length_singleton]
    omega
  · rcases List.mem_append.1 ho with ho | ho
    · exact hoperands o ho
    · exact List.mem_singleton.1 ho ▸ he

theorem text_eq_intercalate_operands (h : left.Fits .conjunction) :
    left.text = " && ".intercalate (left.operands.map text) := by
  cases h with
  | all => rw [text, texts_eq_map, Expr.operands]
  | any loose => exact absurd loose (by decide)
  | _ => simp [Expr.operands]

/-- The text of the longer chain is put together from the two texts. -/
theorem text_andThen (hleft : left.Fits .conjunction) :
    (left.andThen e).text = left.text ++ " && " ++ e.text := by
  have hjoin (texts : List (List Char)) (last : List Char) (hne : texts ≠ []) :
      " && ".toList.intercalate (texts ++ [last]) =
        " && ".toList.intercalate texts ++ (" && ".toList ++ last) := by
    induction texts with
    | nil => exact absurd rfl hne
    | cons t texts ih =>
      cases texts with
      | nil => simp
      | cons u texts =>
        have htail := ih (by simp)
        simp only [List.cons_append, List.intercalate_cons_cons, List.append_assoc] at htail ⊢
        rw [htail]
  have hne : (left.operands.map text).map String.toList ≠ [] := by
    simpa using hleft.operands.1
  rw [text_eq_intercalate_operands hleft, andThen, text, texts_eq_map, ← String.toList_inj]
  simp only [String.toList_intercalate, List.map_append, List.map_cons, List.map_nil,
    String.toList_append, hjoin _ _ hne, List.append_assoc]

theorem evalAll_append {F : Format} (es others : List Expr) :
    evalAll env F (es ++ others) =
      (evalAll env F es).bind fun b => if b then evalAll env F others else some false := by
  induction es with
  | nil => simp [evalAll]
  | cons e es ih =>
    simp only [List.cons_append, evalAll, ih]
    cases e.eval env F with
    | none => rfl
    | some v => cases v with
      | bool b => cases b <;> simp
      | _ => rfl

theorem evalAll_operands (h : left.holds? env = some outcome) :
    evalAll env .double left.operands = some outcome := by
  cases left with
  | all es =>
    rw [Expr.operands]
    cases heval : evalAll env .double es <;> simp_all [Expr.holds?, Expr.value, eval]
  | _ =>
    rw [Expr.holds?, Expr.value] at h
    obtain ⟨v, hv, hb⟩ := Option.bind_eq_some_iff.1 h
    simp only [Expr.operands, evalAll, hv]
    cases outcome <;> simp [hb]

theorem holds?_andThen {right : Bool} (hleft : left.holds? env = some outcome)
    (he : Decides env .double e right) :
    (left.andThen e).holds? env = some (outcome && right) := by
  have hlast : evalAll env .double [e] = some right := by
    rw [Decides] at he
    cases right <;> simp [evalAll, he]
  refine Decides.holds? ?_
  rw [Decides, andThen, eval, evalAll_append, evalAll_operands hleft]
  cases outcome <;> simp [hlast]

end Expr

end Glsl

open Glsl Glsl.Expr

/-! ## Lists of counts -/

theorem any_toInt_eq (counts : List Int32) (s : Int32) :
    counts.any (·.toInt = s.toInt) = decide (s ∈ counts) := by
  simp only [Int32.toInt_inj]
  rw [Bool.eq_iff_iff]
  simp

namespace Glsl.Expr

/-- The text of the test of counts is read as a condition that holds for a count exactly when it is
in the list. Behind `&&` it is read as the last operand of the chain. -/
theorem text_isCount_holds_iff_mem (counts : List Int32) {counter : String}
    (hcounter : IsIdentifier counter) (env : Environment) (s : Int32) :
    (∃ e, ofText? (isCount counts counter).text = some e ∧
      e.holds? (env.assign counter (.int s.toInt)) = some (decide (s ∈ counts))) ∧
    ∀ (left : Expr) (outcome : Bool), left.Fits .conjunction →
      left.holds? (env.assign counter (.int s.toInt)) = some outcome →
        ∃ e, ofText? (left.text ++ " && " ++ (isCount counts counter).text) = some e ∧
          e.holds? (env.assign counter (.int s.toInt)) =
            some (outcome && decide (s ∈ counts)) := by
  have hfits : (isCount counts counter).Fits .equality := fits_isCount counts hcounter.1
  have hdecides : Decides (env.assign counter (.int s.toInt)) .double (isCount counts counter)
      (decide (s ∈ counts)) :=
    any_toInt_eq counts s ▸ decides_isCount_any counts (hcounter.lookup_assign env _)
  refine ⟨⟨_, (hfits.mono (by decide)).ofText?_text, hdecides.holds?⟩, ?_⟩
  intro left outcome hleft houtcome
  rw [← text_andThen hleft]
  exact ⟨_, (hleft.andThen hfits).ofText?_text, holds?_andThen houtcome hdecides⟩

/-- The test of the outermost counts, behind the test that the cell is dead. -/
theorem text_isCount_holds_iff_mem_extremes :
    IsIdentifier "sum" ∧ (Expr.compare .eq (.name "state") (.numeral "0")).Fits .conjunction ∧
    ∃ e, ofText? ((Expr.compare .eq (.name "state") (.numeral "0")).text ++ " && " ++
        (isCount [Int32.maxValue, Int32.minValue, Int32.minValue] "sum").text) = some e ∧
      e.holds? (Environment.assign { functions _ := none, values _ := some (.int 0) } "sum"
        (.int Int32.minValue.toInt)) = some (true && decide (Int32.minValue ∈
          [Int32.maxValue, Int32.minValue, Int32.minValue])) :=
  have hstate : (Expr.compare .eq (.name "state") (.numeral "0")).Fits .conjunction :=
    .compare (by decide) (.name (by decide)) (.numeral (.plain (by decide)))
  ⟨by decide, hstate,
    (text_isCount_holds_iff_mem [Int32.maxValue, Int32.minValue, Int32.minValue] (by decide) _
      Int32.minValue).2 _ true hstate (by decide)⟩

/-! ## Chances -/

/-- The text of the test of chances is read as a condition that holds for a count exactly when the
count has a chance that is certain, or one above zero that the draw falls below. -/
theorem text_fires_holds_iff {chances : Chances} {sum position : String}
    (hchances : ∀ e ∈ chances.entries, e.2.isFinite = true ∨ e.2.isNaN = true)
    (hsum : IsIdentifier sum) (hposition : IsIdentifier position) (hne : sum ≠ position)
    (env : Environment) (s : Int32) {place : Value} {u : Rat}
    (hrand : env.call "rand" [place, .float 1] = some (.float u)) :
    ∃ e fired, ofText? (fires chances sum position).text = some e ∧
      e.holds? ((env.assign position place).assign sum (.int s.toInt)) = some fired ∧
      (fired = true ↔ ∃ p, (s, p) ∈ chances.entries ∧
        (p.equals ChanceRun.certain = true ∨ p.isPositive = true ∧ u < p.toRat)) := by
  have hplace : ((env.assign position place).assign sum (.int s.toInt)).lookup position =
      some place := by
    rw [hposition.lookup_eq_values, Environment.values_assign, if_neg hne.symm,
      Environment.values_assign_self]
  have hfits := fits_fires hchances hsum.1 hposition.1
  have hdecides := decides_fires_any hchances (hsum.lookup_assign _ _)
    (ChanceRun.eval_draw hplace hrand)
  refine ⟨_, _, (hfits.mono (by decide)).ofText?_text, hdecides.holds?, ?_⟩
  simp only [List.any_eq_true, Bool.and_eq_true, decide_eq_true_eq, Int32.toInt_inj,
    ChanceRun.admits_iff, Prod.exists]
  exact ⟨fun ⟨_, p, hmem, hcount, h⟩ => ⟨p, hcount ▸ hmem, h⟩,
    fun ⟨p, hmem, h⟩ => ⟨s, p, hmem, rfl, h⟩⟩

/-- Neighbouring counts of which the first has no number for a chance. -/
theorem text_fires_holds_iff_beside_nan :
    let chances : Chances := SortedMap.ofList
      [(2, .ofBits .double 0x7ff8000000000000), (3, .ofBits .double 0x3fe0000000000000)]
    let env : Environment :=
      { functions _ := some fun _ => some (.float (1 / 4)), values _ := none }
    (∀ e ∈ chances.entries, e.2.isFinite = true ∨ e.2.isNaN = true) ∧
    ∃ e fired, ofText? (fires chances "sum" "position").text = some e ∧
      e.holds? ((env.assign "position" (.vec3 ⟨0, 0, 0⟩)).assign "sum" (.int (3 : Int32).toInt)) =
        some fired ∧
      (fired = true ↔ ∃ p, (3, p) ∈ chances.entries ∧
        (p.equals ChanceRun.certain = true ∨ p.isPositive = true ∧ 1 / 4 < p.toRat)) :=
  have hchances : ∀ e ∈ (SortedMap.ofList
      [(2, .ofBits .double 0x7ff8000000000000), (3, .ofBits .double 0x3fe0000000000000)] :
        Chances).entries, e.2.isFinite = true ∨ e.2.isNaN = true := by decide
  ⟨hchances, text_fires_holds_iff hchances (by decide) (by decide) (by decide) _ 3 rfl⟩

end Glsl.Expr

end CellularShader
