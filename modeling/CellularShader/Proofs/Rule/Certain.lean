/- # Certain chances

Chances under which every count either fires for certain or never does are a list of counts in
another form. Their runs are the runs of that list, and no clause needs a draw. So a stochastic rule
with such chances has the text of the plain rule, behind the source of draws that it does not call.
-/

import CellularShader.Proofs.Count.Dormant
import CellularShader.Rule.Process

namespace CellularShader

open Glsl Glsl.Expr

/-- Chances of which those at the given counts are certain, and no other ever fires. -/
structure Chances.CertainAt (chances : Chances) (counts : List Int32) : Prop where
  settled : ∀ e ∈ chances.entries,
    e.2.equals ChanceRun.certain = true ∨ ChanceRun.CannotFire e.2
  mem_iff : ∀ c, c ∈ counts ↔ ∃ p, (c, p) ∈ chances.entries ∧ p.equals ChanceRun.certain = true

namespace ChanceRun

variable {entry : Int32 × Double} {entries : List (Int32 × Double)} {runs : List ChanceRun}

/-- A count joins a run with an equal chance exactly when it joins the run alone. -/
theorem map_run_prepend (h : ∀ r ∈ runs, entry.2.equals r.chance = true) :
    (prepend entry runs).map (·.run) = Run.prepend entry.1 (runs.map (·.run)) := by
  cases runs with
  | nil => rfl
  | cons r rest =>
    have hr := h r List.mem_cons_self
    by_cases hfollows : Run.Follows r.run.first entry.1
    · rw [prepend, if_pos ⟨hfollows, hr⟩, List.map_cons, List.map_cons, Run.prepend,
        if_pos hfollows]
    · rw [prepend, if_neg fun hjoin => hfollows hjoin.1, List.map_cons, List.map_cons, Run.prepend,
        if_neg hfollows]

theorem certain_of_mem_foldr (h : ∀ e ∈ entries, e.2.equals certain = true) :
    ∀ r ∈ entries.foldr prepend [], r.chance.equals certain = true := by
  intro r hr
  obtain ⟨-, e, he, hchance⟩ := (foldr_prepend_spec entries).1 r hr
  exact hchance ▸ h e he

/-- The runs of certain counts are those of the counts alone. -/
theorem map_run_foldr_prepend (h : ∀ e ∈ entries, e.2.equals certain = true) :
    (entries.foldr prepend []).map (·.run) = Run.group (entries.map (·.1)) := by
  induction entries with
  | nil => rfl
  | cons e entries ih =>
    obtain ⟨he, hrest⟩ := List.forall_mem_cons.1 h
    have hequal : ∀ r ∈ entries.foldr prepend [], e.2.equals r.chance = true :=
      fun r hr => Binary.equals_of_equals he (certain_of_mem_foldr hrest r hr)
    rw [List.foldr_cons, map_run_prepend hequal, ih hrest]
    rfl

end ChanceRun

namespace Chances.CertainAt

open ChanceRun

variable {chances : Chances} {counts : List Int32}

/-- The counts that can fire are the certain ones. -/
theorem certain_of_isPositive (h : chances.CertainAt counts) :
    ∀ e ∈ chances.entries.filter (·.2.isPositive), e.2.equals certain = true := by
  intro e he
  obtain ⟨hmem, hpositive⟩ := List.mem_filter.1 he
  refine (h.settled e hmem).resolve_right fun hcannot => ?_
  rw [isPositive_eq_false_iff.2 hcannot] at hpositive
  cases hpositive

/-- In ascending order they are the distinct counts of the list. -/
theorem map_key_eq_distinct (h : chances.CertainAt counts) :
    (chances.entries.filter (·.2.isPositive)).map (·.1) = Run.distinct counts := by
  have hascending : ((chances.entries.filter (·.2.isPositive)).map (·.1)).Pairwise (· < ·) :=
    List.pairwise_map.2 (chances.ascending.filter _)
  -- Two ascending lists with the same members are equal.
  refine hascending.eq_of_mem_iff (Run.pairwise_distinct counts) fun c => ?_
  rw [Run.mem_distinct, h.mem_iff, List.mem_map]
  constructor
  · rintro ⟨e, he, rfl⟩
    exact ⟨e.2, (List.mem_filter.1 he).1, h.certain_of_isPositive e he⟩
  · rintro ⟨p, hmem, hcertain⟩
    exact ⟨(c, p), List.mem_filter.2 ⟨hmem, isPositive_of_certain hcertain⟩, rfl⟩

/-- The test of the chances is the test of the list. -/
theorem fires_eq_isCount (h : chances.CertainAt counts) (sum position : String) :
    fires chances sum position = isCount counts sum := by
  have hcertain := h.certain_of_isPositive
  have htests : ((chances.entries.filter (·.2.isPositive)).foldr prepend []).filterMap
      (·.test? sum position) =
        ((chances.entries.filter (·.2.isPositive)).foldr prepend []).map (·.run.test sum) := by
    rw [← List.filterMap_eq_map]
    exact List.filterMap_congr fun r hr => test?_of_certain (certain_of_mem_foldr hcertain r hr)
  calc fires chances sum position
      = oneOf (((chances.entries.filter (·.2.isPositive)).foldr prepend []).map
          (·.run.test sum)) := by rw [fires_eq, htests]
    _ = oneOf ((Run.group ((chances.entries.filter (·.2.isPositive)).map (·.1))).map
          (·.test sum)) := by rw [← map_run_foldr_prepend hcertain, List.map_map]; rfl
    _ = isCount counts sum := by rw [h.map_key_eq_distinct, isCount, Run.cover]

end Chances.CertainAt

namespace Rule

/-- A stochastic rule with the transition of a plain one has its text, behind the source of draws
and an empty line. -/
theorem text_extendedStochastic_of_body_eq {r : StochasticRule} {l : LifeRule}
    (h : (Rule.extendedStochastic r).body = (Rule.life l).body) (nb : Neighbourhood) :
    (Rule.extendedStochastic r).text nb =
      randomSource ++ "\n\n" ++ (Rule.life l).text nb := by
  simp [text, sections, isStochastic, family, joinSections, tally, process, h,
    String.append_assoc]

/-- Where every chance is certain or never fires, the test of the chances has the text of the test
of the certain counts, and the stochastic rule that of the plain rule behind the source of draws. -/
theorem text_of_certainAt :
    (∀ (chances : Chances) (counts : List Int32) (sum position : String),
      chances.CertainAt counts →
        (fires chances sum position).text = (isCount counts sum).text) ∧
    ∀ (r : StochasticRule) (l : LifeRule) (nb : Neighbourhood),
      r.birth.CertainAt l.birth → r.survival.CertainAt l.survival →
        (Rule.extendedStochastic r).text nb =
          randomSource ++ "\n\n" ++ (Rule.life l).text nb := by
  refine ⟨fun chances counts sum position h => ?_, fun r l nb hbirth hsurvival => ?_⟩
  · rw [h.fires_eq_isCount]
  · refine text_extendedStochastic_of_body_eq ?_ nb
    rw [body, body, hbirth.fires_eq_isCount, hsurvival.fires_eq_isCount]

/-- Counts that never fire before, between and behind certain ones, which the list repeats in
another order. -/
theorem text_of_certainAt_between :
    let birth : Chances := SortedMap.ofList
      [(2, .ofBits .double 0x7ff8000000000000), (3, ChanceRun.certain),
        (4, .ofBits .double 0x8000000000000000), (5, ChanceRun.certain), (6, .ofInt .double (-1))]
    birth.CertainAt [5, 3, 5] ∧
      (Rule.extendedStochastic ⟨birth, .empty⟩).text [.ofPoint ⟨0, 0, 1⟩] =
        randomSource ++ "\n\n" ++ (Rule.life ⟨[5, 3, 5], []⟩).text [.ofPoint ⟨0, 0, 1⟩] := by
  intro birth
  have hentries : birth.entries =
      [(2, .ofBits .double 0x7ff8000000000000), (3, ChanceRun.certain),
        (4, .ofBits .double 0x8000000000000000), (5, ChanceRun.certain),
        (6, .ofInt .double (-1))] := by
    decide +kernel
  have hbirth : birth.CertainAt [5, 3, 5] := by
    constructor
    case settled =>
      rw [hentries]
      decide +kernel
    case mem_iff =>
      intro c
      rw [hentries]
      simp only [List.mem_cons, List.not_mem_nil, or_false, Prod.mk.injEq]
      constructor
      · rintro (rfl | rfl | rfl)
        · exact ⟨ChanceRun.certain, by simp, by decide +kernel⟩
        · exact ⟨ChanceRun.certain, by simp, by decide +kernel⟩
        · exact ⟨ChanceRun.certain, by simp, by decide +kernel⟩
      · rintro ⟨p, ⟨rfl, rfl⟩ | ⟨rfl, -⟩ | ⟨rfl, rfl⟩ | ⟨rfl, -⟩ | ⟨rfl, rfl⟩, hcertain⟩
        · exact absurd hcertain (by decide +kernel)
        · exact .inr (.inl rfl)
        · exact absurd hcertain (by decide +kernel)
        · exact .inl rfl
        · exact absurd hcertain (by decide +kernel)
  have hnone : Chances.CertainAt .empty [] :=
    ⟨fun e he => absurd he List.not_mem_nil, by simp [SortedMap.empty]⟩
  exact ⟨hbirth, text_of_certainAt.2 ⟨birth, .empty⟩ ⟨[5, 3, 5], []⟩ _ hbirth hnone⟩

end Rule

end CellularShader
