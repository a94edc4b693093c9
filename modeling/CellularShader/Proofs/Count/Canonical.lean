/- # One test for each set of counts

The distinct counts of a list, in ascending order, depend only on which counts are in the list, and
the runs depend only on these. A test shows its runs again: their bounds are written in it, and its
form tells how many there are. So two lists have the same test, as syntax and as text, exactly when
they have the same counts.
-/

import CellularShader.Proofs.Count.Text
import Mathlib.Data.List.Sort

namespace CellularShader

open Glsl Glsl.Expr

/-- Two lists of the same counts, in whatever order and however often each occurs. -/
def SameCounts (a b : List Int32) : Prop := ∀ c, c ∈ a ↔ c ∈ b

/-- Counts that are written alike are the same. -/
theorem int_toInt_inj {m n : Int32} : Expr.int m.toInt = Expr.int n.toInt ↔ m = n := by
  rw [Expr.int, Expr.int, Expr.numeral.injEq, Literal.ofInt_injective.eq_iff, Int32.toInt_inj]

namespace Run

variable {a b : List Int32} {counter : String}

/-! ## Runs -/

theorem pairwise_insertCount (count : Int32) {counts : List Int32}
    (h : counts.Pairwise (· < ·)) : (insertCount count counts).Pairwise (· < ·) := by
  induction counts with
  | nil => exact List.pairwise_singleton _ _
  | cons c rest ih =>
    obtain ⟨hfirst, hrest⟩ := List.pairwise_cons.1 h
    rw [insertCount]
    split_ifs with hbefore hbehind
    · refine List.pairwise_cons.2 ⟨fun d hd => ?_, h⟩
      rcases List.mem_cons.1 hd with rfl | hd
      · exact hbefore
      · exact Int32.lt_trans hbefore (hfirst d hd)
    · refine List.pairwise_cons.2 ⟨fun d hd => ?_, ih hrest⟩
      rcases mem_insertCount.1 hd with rfl | hd
      · exact hbehind
      · exact hfirst d hd
    · exact h

theorem pairwise_distinct (counts : List Int32) : (distinct counts).Pairwise (· < ·) := by
  induction counts with
  | nil => exact List.Pairwise.nil
  | cons c counts ih => exact pairwise_insertCount c ih

/-- An ascending list without repetitions is determined by its members. -/
theorem distinct_congr (h : SameCounts a b) : distinct a = distinct b := by
  refine (pairwise_distinct a).eq_of_mem_iff (pairwise_distinct b) fun c => ?_
  rw [mem_distinct, mem_distinct]
  exact h c

/-- Two lists have the same runs exactly when they have the same counts. -/
theorem cover_eq_iff : cover a = cover b ↔ SameCounts a b := by
  constructor
  · intro h c
    have hcovered := any_covers_cover a c.toInt
    rw [h, any_covers_cover, any_toInt_eq, any_toInt_eq, decide_eq_decide] at hcovered
    exact hcovered.symm
  · intro h
    rw [cover, cover, distinct_congr h]

/-! ## Their tests -/

theorem test_of_isRange {r : Run} (h : r.isRange = true) : r.test counter =
    .paren (.all [.compare .ge (.name counter) (.int r.first.toInt),
      .compare .le (.name counter) (.int r.last.toInt)]) := by
  simp [test, bounds, h]

theorem test_of_not_isRange {r : Run} (h : r.isRange = false) :
    r.test counter = .compare .eq (.name counter) (.int r.first.toInt) := by
  simp [test, bounds, h]

/-- A run of one count ends where it starts. -/
theorem last_of_not_isRange {r : Run} (hr : r.Ordered) (h : r.isRange = false) :
    r.last = r.first := by
  rw [isRange, decide_eq_false_iff_not, Int32.lt_iff_toInt_lt] at h
  exact Int32.toInt_inj.1 (le_antisymm (not_lt.1 h) hr)

/-- The test of a run shows where the run starts and ends. -/
theorem eq_of_test_eq {r s : Run} (hr : r.Ordered) (hs : s.Ordered)
    (h : r.test counter = s.test counter) : r = s := by
  cases hrange : r.isRange with
  | true =>
    cases hrange' : s.isRange with
    | true =>
      rw [test_of_isRange hrange, test_of_isRange hrange'] at h
      injection h with hall
      injection hall with hbounds
      injection hbounds with hfirst hothers
      injection hothers with hlast
      injection hfirst with _ _ hfirst
      injection hlast with _ _ hlast
      exact congrArg₂ Run.mk (int_toInt_inj.1 hfirst) (int_toInt_inj.1 hlast)
    | false =>
      rw [test_of_isRange hrange, test_of_not_isRange hrange'] at h
      cases h
  | false =>
    cases hrange' : s.isRange with
    | true =>
      rw [test_of_not_isRange hrange, test_of_isRange hrange'] at h
      cases h
    | false =>
      rw [test_of_not_isRange hrange, test_of_not_isRange hrange'] at h
      injection h with _ _ hfirst
      have hsame := int_toInt_inj.1 hfirst
      exact congrArg₂ Run.mk hsame
        ((last_of_not_isRange hr hrange).trans (hsame.trans (last_of_not_isRange hs hrange').symm))

end Run

namespace Glsl.Expr

variable {a b : List Int32} {counter : String}

/-- The forms of a clause: a comparison, or a chain of `&&` in parentheses. -/
inductive IsClause : Expr → Prop
  | comparison {operator : Comparison} {left right : Expr} : IsClause (.compare operator left right)
  | chain {operands : List Expr} : IsClause (.paren (.all operands))

/-- How many clauses there are can be told from the test that one of them holds. -/
theorem eq_of_oneOf_eq {cs ds : List Expr} (hcs : ∀ e ∈ cs, IsClause e)
    (hds : ∀ e ∈ ds, IsClause e) (h : oneOf cs = oneOf ds) : cs = ds := by
  -- None is a name, one is a clause, and several are a chain of `||` in parentheses.
  have hnone {e : Expr} (he : IsClause e) : never ≠ e := by
    intro heq
    rw [← heq] at he
    cases he
  have hseveral {e : Expr} {es : List Expr} (he : IsClause e) : e ≠ .paren (.any es) := by
    intro heq
    rw [heq] at he
    cases he
  rcases cs with _ | ⟨c, _ | ⟨c', cs⟩⟩ <;> rcases ds with _ | ⟨d, _ | ⟨d', ds⟩⟩
  · rfl
  · exact absurd h (hnone (hds d List.mem_cons_self))
  · cases h
  · exact absurd h.symm (hnone (hcs c List.mem_cons_self))
  · exact congrArg ([·]) h
  · exact absurd h (hseveral (hcs c List.mem_cons_self))
  · cases h
  · exact absurd h.symm (hseveral (hds d List.mem_cons_self))
  · injection h with hany
    injection hany

theorem isClause_test (r : Run) (counter : String) : IsClause (r.test counter) := by
  cases hrange : r.isRange with
  | true =>
    rw [Run.test_of_isRange hrange]
    exact .chain
  | false =>
    rw [Run.test_of_not_isRange hrange]
    exact .comparison

/-- The test of counts shows their runs. -/
theorem cover_eq_of_isCount_eq (h : isCount a counter = isCount b counter) :
    Run.cover a = Run.cover b := by
  have hclauses (counts : List Int32) :
      ∀ e ∈ (Run.cover counts).map (·.test counter), IsClause e := by
    intro e he
    obtain ⟨r, -, rfl⟩ := List.mem_map.1 he
    exact isClause_test r counter
  have htests := eq_of_oneOf_eq (hclauses a) (hclauses b) h
  have hlength : (Run.cover a).length = (Run.cover b).length := by
    simpa using congrArg List.length htests
  refine List.ext_getElem hlength fun i hi hi' => ?_
  have htest := List.getElem_of_eq htests ((List.length_map _).symm ▸ hi)
  rw [List.getElem_map, List.getElem_map] at htest
  exact Run.eq_of_test_eq (Run.ordered_of_mem_cover (List.getElem_mem hi))
    (Run.ordered_of_mem_cover (List.getElem_mem hi')) htest

/-- Two lists have the same test exactly when they have the same counts. -/
theorem isCount_eq_iff : isCount a counter = isCount b counter ↔ SameCounts a b := by
  constructor
  · intro h
    exact Run.cover_eq_iff.1 (cover_eq_of_isCount_eq h)
  · intro h
    rw [isCount, isCount, Run.cover_eq_iff.2 h]

/-- So it is with the text of the test, whichever word the counter is. -/
theorem text_isCount_eq_iff (hcounter : Token.isWord counter.toList = true) :
    (isCount a counter).text = (isCount b counter).text ↔ SameCounts a b := by
  have hread (counts : List Int32) :
      ofText? (isCount counts counter).text = some (isCount counts counter) :=
    ((fits_isCount counts hcounter).mono (by decide)).ofText?_text
  constructor
  · intro h
    have hsame := hread a
    rw [h, hread b] at hsame
    exact isCount_eq_iff.1 (Option.some.inj hsame).symm
  · intro h
    rw [isCount_eq_iff.2 h]

/-- Two runs, out of order and with a repetition. -/
example : (isCount [9, 5, 3, 4, 3] "sum").text = "((sum >= 3 && sum <= 5) || sum == 9)" := by
  decide +kernel

end Glsl.Expr

end CellularShader
