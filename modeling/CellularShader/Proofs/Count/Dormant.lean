/- # Counts that cannot fire

A count fires only under a chance above zero. One that cannot fire has no clause in a test, but it
stands between the counts that can, and the runs are made before any run is dropped. It makes no
difference: where such a count is left out there is a gap, and no run reaches across a gap. So a
test depends only on the counts that can fire, and it is the test of a list when all of these are
certain.
-/

import CellularShader.Proofs.Count.Canonical
import CellularShader.Proofs.Text.Occurrence

namespace CellularShader

open Glsl Glsl.Expr

namespace Glsl.Expr

variable {c : Char} {e : Expr} {es : List Expr}

/-- What is written in an operand is written in the chain. -/
theorem mem_text_chain {symbol : String} (he : e ∈ es) (hc : c ∈ e.text.toList) :
    c ∈ (symbol.intercalate (texts es)).toList := by
  rw [texts_eq_map, String.toList_intercalate, List.map_map]
  exact (Text.infix_intercalate (List.mem_map_of_mem he)).subset hc

theorem mem_text_paren (hc : c ∈ e.text.toList) : c ∈ (paren e).text.toList := by
  simp [text, hc]

theorem mem_text_oneOf (hne : es ≠ []) (hc : ∀ e ∈ es, c ∈ e.text.toList) :
    c ∈ (oneOf es).text.toList := by
  rcases es with _ | ⟨e, _ | ⟨f, es⟩⟩
  · exact absurd rfl hne
  · exact hc e List.mem_cons_self
  · exact mem_text_paren (mem_text_chain List.mem_cons_self (hc e List.mem_cons_self))

end Glsl.Expr

namespace ChanceRun

variable {chance : Double} {entry : Int32 × Double} {entries : List (Int32 × Double)}
  {runs : List ChanceRun} {sum position : String}

/-- A chance under which a count never fires: it is no number, or it is not above zero. -/
def CannotFire (chance : Double) : Prop := chance.isNaN = true ∨ chance.value ≤ 0

instance : DecidablePred CannotFire := fun _ => inferInstanceAs (Decidable (_ ∨ _))

theorem isPositive_eq_false_iff : chance.isPositive = false ↔ CannotFire chance := by
  simp only [Binary.isPositive, CannotFire, Bool.and_eq_false_iff, Bool.not_eq_false',
    decide_eq_false_iff_not, not_lt]

theorem isPositive_of_certain (h : chance.equals certain = true) : chance.isPositive = true :=
  (Binary.isPositive_of_equals h).trans (by decide +kernel)

/-! ## Where runs start -/

/-- A count that does not join the first run stands before it as a run of its own. -/
theorem prepend_of_apart
    (h : ∀ r ∈ runs.head?, ¬(Run.Follows r.run.first entry.1 ∧ entry.2.equals r.chance = true)) :
    prepend entry runs = ⟨.single entry.1, entry.2⟩ :: runs := by
  cases runs with
  | nil => rfl
  | cons r rest => rw [prepend, if_neg (h r rfl)]

/-- The first run starts with the count that was put there, and the others were there before. -/
theorem exists_prepend_eq (entry : Int32 × Double) (runs : List ChanceRun) : ∃ r rest,
    prepend entry runs = r :: rest ∧ r.run.first = entry.1 ∧ r.chance = entry.2 ∧
      rest.Sublist runs := by
  cases runs with
  | nil => exact ⟨_, _, rfl, rfl, rfl, .refl _⟩
  | cons r rest =>
    rw [prepend]
    split_ifs
    · exact ⟨_, _, rfl, rfl, rfl, List.sublist_cons_self _ _⟩
    · exact ⟨_, _, rfl, rfl, rfl, .refl _⟩

theorem exists_entry_of_mem {r : ChanceRun} (h : r ∈ entries.foldr prepend []) :
    ∃ e ∈ entries, e.1 = r.run.first := by
  induction entries with
  | nil => cases h
  | cons e entries ih =>
    obtain ⟨s, rest, hprepend, hfirst, -, hrest⟩ := exists_prepend_eq e (entries.foldr prepend [])
    rw [List.foldr_cons, hprepend] at h
    rcases List.mem_cons.1 h with rfl | h
    · exact ⟨e, List.mem_cons_self, hfirst.symm⟩
    · obtain ⟨f, hf, heq⟩ := ih (hrest.subset h)
      exact ⟨f, List.mem_cons_of_mem _ hf, heq⟩

/-- A count below all others starts before all their runs. -/
theorem lt_first_of_lt (h : ∀ e ∈ entries, entry.1 < e.1) :
    ∀ r ∈ entries.foldr prepend [], entry.1 < r.run.first := by
  intro r hr
  obtain ⟨e, he, hfirst⟩ := exists_entry_of_mem hr
  exact hfirst ▸ h e he

/-- The runs of ascending counts start in ascending order. -/
theorem ascending_foldr_prepend (h : entries.Pairwise fun a b => a.1 < b.1) :
    (entries.foldr prepend []).Pairwise fun r s => r.run.first < s.run.first := by
  induction entries with
  | nil => exact .nil
  | cons e entries ih =>
    obtain ⟨hfirst, hrest⟩ := List.pairwise_cons.1 h
    obtain ⟨r, rest, hprepend, hr, -, hsub⟩ := exists_prepend_eq e (entries.foldr prepend [])
    rw [List.foldr_cons, hprepend]
    -- Whether the count joined a run or not, it starts the first one.
    refine List.pairwise_cons.2 ⟨fun s hs => ?_, (ih hrest).sublist hsub⟩
    rw [hr]
    exact lt_first_of_lt hfirst s (hsub.subset hs)

/-! ## Runs that can fire -/

/-- No run starts directly after a count when another one starts in between. -/
theorem not_follows_of_lt {a b c : Int32} (hab : a < b) (hbc : b < c) : ¬Run.Follows c a := by
  rw [Int32.lt_iff_toInt_lt] at hab hbc
  rw [Run.Follows]
  omega

/-- A count that can fire may be put before all runs or before those that can fire. -/
theorem filter_prepend_of_isPositive (hentry : entry.2.isPositive = true)
    (hbefore : ∀ r ∈ runs, entry.1 < r.run.first)
    (hascending : runs.Pairwise fun r s => r.run.first < s.run.first) :
    (prepend entry runs).filter (·.chance.isPositive) =
      prepend entry (runs.filter (·.chance.isPositive)) := by
  cases runs with
  | nil => simp [prepend, hentry]
  | cons r rest =>
    by_cases hjoin : Run.Follows r.run.first entry.1 ∧ entry.2.equals r.chance = true
    · have hr : r.chance.isPositive = true :=
        (Binary.isPositive_of_equals hjoin.2).symm.trans hentry
      simp [prepend, hjoin, hentry, hr]
    · -- A run that cannot fire separates the count from what comes behind it.
      have hapart : ∀ s ∈ ((r :: rest).filter (·.chance.isPositive)).head?,
          ¬(Run.Follows s.run.first entry.1 ∧ entry.2.equals s.chance = true) := by
        intro s hs
        have hmem := List.mem_filter.1 (List.mem_of_mem_head? hs)
        rcases List.mem_cons.1 hmem.1 with rfl | hs
        · exact hjoin
        · exact fun h => not_follows_of_lt (hbefore r List.mem_cons_self)
            ((List.pairwise_cons.1 hascending).1 s hs) h.1
      rw [prepend_of_apart hapart, prepend, if_neg hjoin, List.filter_cons, if_pos hentry]

/-- A count that cannot fire leaves the runs that can as they are. -/
theorem filter_prepend_of_cannotFire (hentry : entry.2.isPositive = false)
    (runs : List ChanceRun) :
    (prepend entry runs).filter (·.chance.isPositive) = runs.filter (·.chance.isPositive) := by
  cases runs with
  | nil => simp [prepend, hentry]
  | cons r rest =>
    by_cases hjoin : Run.Follows r.run.first entry.1 ∧ entry.2.equals r.chance = true
    · have hr : r.chance.isPositive = false :=
        (Binary.isPositive_of_equals hjoin.2).symm.trans hentry
      simp [prepend, hjoin, hentry, hr]
    · rw [prepend, if_neg hjoin, List.filter_cons, hentry]
      rfl

/-- What cannot fire may be dropped from ascending counts or from their runs. -/
theorem filter_foldr_prepend (h : entries.Pairwise fun a b => a.1 < b.1) :
    (entries.foldr prepend []).filter (·.chance.isPositive) =
      (entries.filter (·.2.isPositive)).foldr prepend [] := by
  induction entries with
  | nil => rfl
  | cons e entries ih =>
    obtain ⟨hfirst, hrest⟩ := List.pairwise_cons.1 h
    rw [List.foldr_cons]
    cases he : e.2.isPositive with
    | true =>
      rw [filter_prepend_of_isPositive he (lt_first_of_lt hfirst) (ascending_foldr_prepend hrest),
        ih hrest, List.filter_cons, if_pos he, List.foldr_cons]
    | false =>
      rw [filter_prepend_of_cannotFire he, ih hrest, List.filter_cons, he]
      rfl

/-! ## Their tests -/

theorem test?_of_certain {r : ChanceRun} (h : r.chance.equals certain = true) :
    r.test? sum position = some (r.run.test sum) := by
  rw [test?, if_pos h]

theorem test?_of_cannotFire {r : ChanceRun} (h : r.chance.isPositive = false) :
    r.test? sum position = none := by
  have hcertain : ¬r.chance.equals certain = true := by
    intro hcertain
    rw [isPositive_of_certain hcertain] at h
    cases h
  rw [test?, if_neg hcertain, h]
  rfl

theorem exists_test?_of_isPositive {r : ChanceRun} (h : r.chance.isPositive = true) :
    ∃ e, r.test? sum position = some e := by
  rw [test?, if_pos h]
  split_ifs
  · exact ⟨_, rfl⟩
  · exact ⟨_, rfl⟩

/-- The clauses are those of the runs that can fire. -/
theorem filterMap_test?_filter (runs : List ChanceRun) (sum position : String) :
    (runs.filter (·.chance.isPositive)).filterMap (·.test? sum position) =
      runs.filterMap (·.test? sum position) := by
  rw [List.filterMap_filter]
  refine List.filterMap_congr fun r _ => ?_
  split_ifs with h
  · rfl
  · rw [test?_of_cannotFire (Bool.eq_false_of_not_eq_true h)]

/-- Every clause is a comparison or holds one, so there is a blank in it. -/
theorem blank_mem_text_test? {r : ChanceRun} {e : Expr} (h : r.test? sum position = some e) :
    ' ' ∈ e.text.toList := by
  have hcompare (operator : Comparison) (left right : Expr) :
      ' ' ∈ (Expr.compare operator left right).text.toList := by
    simp [Expr.text]
  rw [test?] at h
  split_ifs at h
  · cases h
    cases hrange : r.run.isRange with
    | true =>
      rw [Run.test_of_isRange hrange]
      exact mem_text_paren (mem_text_chain List.mem_cons_self (hcompare _ _ _))
    | false =>
      rw [Run.test_of_not_isRange hrange]
      exact hcompare _ _ _
  · cases h
    exact mem_text_paren (mem_text_chain (List.mem_append_right _ List.mem_cons_self)
      (hcompare _ _ _))

end ChanceRun

namespace SortedMap

variable {κ α : Type} [LT κ] [DecidableEq κ]

/-- What is left after some keys were erased. -/
theorem entries_foldl_erase (removed : List κ) (m : SortedMap κ α) :
    (removed.foldl erase m).entries = m.entries.filter (·.1 ∉ removed) := by
  induction removed generalizing m with
  | nil => simp
  | cons key removed ih =>
    rw [List.foldl_cons, ih, erase, List.filter_filter]
    refine List.filter_congr fun e _ => ?_
    simp [Bool.and_comm]

end SortedMap

namespace Glsl.Expr

open ChanceRun

variable {a b chances : Chances} {entries : List (Int32 × Double)} {sum position : String}

/-- The test of chances is made from the counts that can fire. -/
theorem fires_eq (chances : Chances) (sum position : String) :
    fires chances sum position =
      oneOf (((chances.entries.filter (·.2.isPositive)).foldr prepend []).filterMap
        (·.test? sum position)) := by
  rw [fires, ← filterMap_test?_filter, cover, filter_foldr_prepend chances.ascending]

theorem fires_congr
    (h : a.entries.filter (·.2.isPositive) = b.entries.filter (·.2.isPositive)) :
    fires a sum position = fires b sum position := by
  rw [fires_eq, fires_eq, h]

/-- Counts that cannot fire may be erased. -/
theorem fires_erase {removed : List Int32}
    (h : ∀ e ∈ chances.entries, e.1 ∈ removed → CannotFire e.2) :
    fires (removed.foldl .erase chances) sum position = fires chances sum position := by
  refine fires_congr ?_
  rw [SortedMap.entries_foldl_erase, List.filter_filter]
  refine List.filter_congr fun e he => ?_
  by_cases hremoved : e.1 ∈ removed
  · simp [isPositive_eq_false_iff.2 (h e he hremoved)]
  · simp [hremoved]

/-- A count that can fire gives a clause. -/
theorem clauses_ne_nil (hpositive : ∀ e ∈ entries, e.2.isPositive = true) (hne : entries ≠ []) :
    (entries.foldr prepend []).filterMap (·.test? sum position) ≠ [] := by
  obtain ⟨e, entries, rfl⟩ := List.exists_cons_of_ne_nil hne
  obtain ⟨r, rest, hprepend, -, hchance, -⟩ := exists_prepend_eq e (entries.foldr prepend [])
  obtain ⟨clause, hclause⟩ : ∃ clause, r.test? sum position = some clause :=
    exists_test?_of_isPositive (hchance ▸ hpositive e List.mem_cons_self)
  rw [List.foldr_cons, hprepend, List.filterMap_cons, hclause]
  exact List.cons_ne_nil _ _

/-- The test is the word `false` when nothing can fire, and it has a blank in it otherwise. -/
theorem text_fires_eq_false_iff :
    (fires chances sum position).text = "false" ↔ ∀ e ∈ chances.entries, CannotFire e.2 := by
  have hnone : chances.entries.filter (·.2.isPositive) = [] ↔
      ∀ e ∈ chances.entries, CannotFire e.2 := by
    simp only [List.filter_eq_nil_iff, Bool.not_eq_true, isPositive_eq_false_iff]
  rw [← hnone, fires_eq]
  constructor
  · intro h
    by_contra hne
    have hpositive : ∀ e ∈ chances.entries.filter (·.2.isPositive), e.2.isPositive = true :=
      fun e he => (List.mem_filter.1 he).2
    -- The word itself has no blank in it.
    have hblank : ' ' ∈ "false".toList := h ▸ mem_text_oneOf (clauses_ne_nil hpositive hne)
      fun clause hclause => by
        obtain ⟨r, -, hr⟩ := List.mem_filterMap.1 hclause
        exact blank_mem_text_test? hr
    exact absurd hblank (by decide)
  · intro h
    rw [h]
    rfl

/-- Counts that cannot fire leave no trace in the text of a test: they may be erased from the
chances, and where there are no others the test is the word `false`. -/
theorem text_fires_without_dormant :
    (∀ (chances : Chances) (removed : List Int32) (sum position : String),
      (∀ e ∈ chances.entries, e.1 ∈ removed → CannotFire e.2) →
        (fires (removed.foldl .erase chances) sum position).text =
          (fires chances sum position).text) ∧
    ∀ (chances : Chances) (sum position : String),
      (fires chances sum position).text = "false" ↔
        ¬∃ e ∈ chances.entries, e.2.isPositive = true := by
  refine ⟨fun chances removed sum position h => ?_, fun chances sum position => ?_⟩
  · rw [fires_erase h]
  · simp only [text_fires_eq_false_iff, ← isPositive_eq_false_iff, not_exists, not_and,
      Bool.not_eq_true]

/-- A negative zero between two certain counts, and behind them a chance that is no number. -/
theorem text_fires_without_dormant_between :
    let chances : Chances := SortedMap.ofList
      [(2, certain), (3, .ofBits .double 0x8000000000000000), (4, certain),
        (5, .ofBits .double 0x7ff8000000000000)]
    (∀ e ∈ chances.entries, e.1 ∈ [3, 5] → CannotFire e.2) ∧
      (fires ([3, 5].foldl .erase chances) "sum" "position").text =
        (fires chances "sum" "position").text :=
  have hremoved : ∀ e ∈ (SortedMap.ofList
      [(2, certain), (3, .ofBits .double 0x8000000000000000), (4, certain),
        (5, .ofBits .double 0x7ff8000000000000)] : Chances).entries,
      e.1 ∈ [3, 5] → CannotFire e.2 := by decide +kernel
  ⟨hremoved, text_fires_without_dormant.1 _ [3, 5] "sum" "position" hremoved⟩

end Glsl.Expr

end CellularShader
