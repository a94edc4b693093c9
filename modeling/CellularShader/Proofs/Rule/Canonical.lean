/- # One text for each set of parameters

The text of a rule ends in the text of its transition, and this is read as the statements of the
transition. The statements show the tests of counts that they hold, and the length of the cycle. So
two rules of a family that is given by sets of counts have the same text over a neighbourhood
exactly when the sets and the numbers of states are the same.
-/

import CellularShader.Proofs.Count.Canonical
import CellularShader.Proofs.Rule.Text

namespace CellularShader

open Glsl Glsl.Expr

namespace Glsl.Routine

/-- Legible routines that are printed alike have the same statements. -/
theorem body_eq_of_text_eq {r s : Routine} (hr : r.Legible) (hs : s.Legible) {layout : Layout}
    (h : r.text layout = s.text layout) : r.body = s.body := by
  have hread {t : Routine} (ht : t.Legible) : ofText? (t.text layout) = some [t.joined] := by
    have hclosed : Closed (t.text layout).toList ([t].flatMap tokens) := by
      simpa using t.closed_text ht layout
    exact ofText?_of_closed hclosed (by simpa using ht)
  have hjoined := hread hr
  rw [h, hread hs] at hjoined
  have hsame : s.joined = r.joined := by simpa using hjoined
  rw [← r.body_joined, ← s.body_joined, hsame]

end Glsl.Routine

/-! ## Statements -/

theorem lifeBody_eq_iff {a b : LifeRule} :
    lifeBody [.isCount a.birth "sum"] [.isCount a.survival "sum"] =
        lifeBody [.isCount b.birth "sum"] [.isCount b.survival "sum"] ↔
      SameCounts a.birth b.birth ∧ SameCounts a.survival b.survival := by
  simp only [lifeBody, List.cons.injEq, Stmt.giveFirst.injEq, Arm.mk.injEq, Expr.all.injEq,
    isCount_eq_iff, true_and, and_true]

/-- The length of a cycle is written in the state that it is counted in. -/
theorem advanced_inj {steps : Int} {m n : Int32} :
    advanced steps m.toInt = advanced steps n.toInt ↔ m = n := by
  simp only [advanced, Expr.call.injEq, List.cons.injEq, int_toInt_inj, true_and, and_true]

theorem GenerationsRule.body_eq_iff {a b : GenerationsRule} : a.body = b.body ↔
    SameCounts a.birth b.birth ∧ SameCounts a.survival b.survival ∧
      a.stateCount = b.stateCount := by
  simp only [body, List.cons.injEq, Stmt.giveFirst.injEq, Arm.mk.injEq, Expr.all.injEq,
    isCount_eq_iff, advanced_inj, true_and, and_true]

theorem VoteRule.body_eq_iff {a b : VoteRule} : a.body = b.body ↔ SameCounts a.vote b.vote := by
  simp only [body, List.cons.injEq, Stmt.giveFirst.injEq, Arm.mk.injEq, isCount_eq_iff,
    true_and, and_true]

namespace Rule

variable {a b : Rule} {nb : Neighbourhood}

/-- The families whose parameters are sets of counts. -/
def setFamilies : List Family :=
  [.life, .extendedLife, .vote, .generations, .extendedGenerations]

/-- Rules of one such family with the same counts, and where the family has them, the same number of
states. -/
def SameParameters : Rule → Rule → Prop
  | life a, life b | extendedLife a, extendedLife b =>
    SameCounts a.birth b.birth ∧ SameCounts a.survival b.survival
  | generations a, generations b | extendedGenerations a, extendedGenerations b =>
    SameCounts a.birth b.birth ∧ SameCounts a.survival b.survival ∧ a.stateCount = b.stateCount
  | vote a, vote b => SameCounts a.vote b.vote
  | _, _ => False

/-- The text of a rule without draws ends in its transition. -/
theorem toList_text_of_not_stochastic (h : a.isStochastic = false) (nb : Neighbourhood) :
    (a.text nb).toList = (a.tally.text nb ++ "\n\n").toList ++ (a.process.text {}).toList := by
  simp [text, sections, h, joinSections]

/-- Rules that count alike and draw nothing have the same text exactly when they have the same
statements. -/
theorem text_eq_iff_body_eq (hdraws : a.isStochastic = false) (hdraws' : b.isStochastic = false)
    (htally : a.tally = b.tally) : a.text nb = b.text nb ↔ a.body = b.body := by
  have hlegible {r : Rule} (hr : r.isStochastic = false) : r.process.Legible := by
    refine legible_process ?_
    cases r with
    | extendedStochastic => cases hr
    | _ => exact True.intro
  have hbody (r : Rule) : r.process.body = r.body := by
    simp [Routine.body, process, processRoutine]
  rw [← String.toList_inj, toList_text_of_not_stochastic hdraws,
    toList_text_of_not_stochastic hdraws', htally, List.append_cancel_left_eq, String.toList_inj]
  constructor
  · intro h
    rw [← hbody a, ← hbody b]
    exact Routine.body_eq_of_text_eq (hlegible hdraws) (hlegible hdraws') h
  · intro h
    rw [process, process, h]

theorem body_eq_iff_sameParameters (hset : a.family ∈ setFamilies) (hfamily : b.family = a.family) :
    a.body = b.body ↔ a.SameParameters b := by
  cases a <;> cases b <;> cases hfamily
  case life.life | extendedLife.extendedLife => exact lifeBody_eq_iff
  case generations.generations | extendedGenerations.extendedGenerations =>
    exact GenerationsRule.body_eq_iff
  case vote.vote => exact VoteRule.body_eq_iff
  all_goals simp [family, setFamilies] at hset

/-- Two rules of a family that is given by sets of counts have the same text over a neighbourhood
exactly when they have the same parameters, and the tests of two lists have the same text exactly
when the lists have the same counts. -/
theorem text_eq_iff_sameParameters :
    (∀ (nb : Neighbourhood) (a b : Rule), a.family ∈ setFamilies → b.family = a.family →
      (a.text nb = b.text nb ↔ a.SameParameters b)) ∧
    ∀ (v : String) (a b : List Int32), Token.isWord v.toList = true →
      ((isCount a v).text = (isCount b v).text ↔ SameCounts a b) := by
  refine ⟨fun nb a b hset hfamily => ?_, fun v a b hv => text_isCount_eq_iff hv⟩
  have hdraws {r : Rule} (hr : r.family ∈ setFamilies) : r.isStochastic = false := by
    refine decide_eq_false fun hstochastic => ?_
    rw [hstochastic] at hr
    exact absurd hr (by decide)
  have htally : a.tally = b.tally := by
    cases a <;> cases b <;> first | rfl | cases hfamily
  rw [text_eq_iff_body_eq (hdraws hset) (hdraws (hfamily ▸ hset)) htally,
    body_eq_iff_sameParameters hset hfamily]

/-- A repeated count changes no text, a count more does, and so does a longer cycle. -/
theorem text_eq_iff_sameParameters_repeated :
    (Rule.extendedLife ⟨[5, 4, 5], []⟩).text [.ofPoint ⟨1, 0, 0⟩] =
        (Rule.extendedLife ⟨[4, 5], []⟩).text [.ofPoint ⟨1, 0, 0⟩] ∧
      (Rule.vote ⟨[]⟩).text [] ≠ (Rule.vote ⟨[Int32.minValue]⟩).text [] ∧
      (Rule.generations ⟨[], [], 1⟩).text [] ≠ (Rule.generations ⟨[], [], 11⟩).text [] ∧
      (isCount [1, 2] "sum").text ≠ (isCount [12] "sum").text := by
  have hlife := text_eq_iff_sameParameters.1 [.ofPoint ⟨1, 0, 0⟩] (.extendedLife ⟨[5, 4, 5], []⟩)
    (.extendedLife ⟨[4, 5], []⟩) (by decide) rfl
  have hvote := text_eq_iff_sameParameters.1 [] (.vote ⟨[]⟩) (.vote ⟨[Int32.minValue]⟩)
    (by decide) rfl
  have hcycle := text_eq_iff_sameParameters.1 [] (.generations ⟨[], [], 1⟩)
    (.generations ⟨[], [], 11⟩) (by decide) rfl
  have htest := text_eq_iff_sameParameters.2 "sum" [1, 2] [12] (by decide)
  refine ⟨hlife.2 ⟨fun c => ?_, fun c => Iff.rfl⟩, fun h => ?_, fun h => ?_, fun h => ?_⟩
  · simp only [List.mem_cons, List.not_mem_nil, or_false]
    exact or_iff_right_of_imp Or.inr
  · exact absurd (hvote.1 h Int32.minValue) (by decide)
  · exact absurd (hcycle.1 h).2.2 (by decide)
  · exact absurd (htest.1 h 12) (by decide)

end Rule

end CellularShader
