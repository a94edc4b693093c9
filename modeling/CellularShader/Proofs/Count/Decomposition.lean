/- # The maximal runs of a set of counts

Runs that keep a number between any two of them can be told from the numbers they cover: the first
run starts at the least of these and ends before the first gap, and so on behind the gap. The runs
of a list of counts are such runs, so there are no others for the same counts. No interval reaches
across a gap either, so there are no covers with fewer intervals.
-/

import CellularShader.Proofs.Count.Canonical
import Mathlib.Data.Int.ConditionallyCompleteOrder
import Mathlib.Data.List.Chain
import Mathlib.Data.List.Pairwise
import Mathlib.Order.Interval.Set.OrdConnected

namespace CellularShader

namespace Run

variable {r s : Run} {runs : List Run} {counts : List Int32} {n : Int}

theorem covers_iff : r.covers n = true ↔ r.first.toInt ≤ n ∧ n ≤ r.last.toInt := by
  simp [covers]

theorem Ordered.covers_first (h : r.Ordered) : r.covers r.first.toInt = true :=
  covers_iff.2 ⟨le_rfl, h⟩

/-- A run is a range when it covers at least two numbers. -/
theorem isRange_iff :
    r.isRange = true ↔ ∃ m n, m < n ∧ r.covers m = true ∧ r.covers n = true := by
  rw [isRange, decide_eq_true_eq, Int32.lt_iff_toInt_lt]
  simp only [covers_iff]
  constructor
  · intro h
    exact ⟨_, _, h, ⟨le_rfl, h.le⟩, h.le, le_rfl⟩
  · rintro ⟨m, n, hlt, ⟨hfirst, -⟩, -, hlast⟩
    omega

/-! ## Runs with gaps between them -/

/-- Whether a number lies in one of the runs. -/
def Covered (runs : List Run) (n : Int) : Prop := ∃ r ∈ runs, r.covers n = true

/-- A run that ends at least one number before another starts. The sum is made in the integers. -/
def Apart (r s : Run) : Prop := r.last.toInt + 2 ≤ s.first.toInt

/-- Runs that cover something, in ascending order and with a gap behind each. -/
structure Separated (runs : List Run) : Prop where
  ordered : ∀ r ∈ runs, r.Ordered
  apart : runs.IsChain Apart

theorem covered_cons : Covered (r :: runs) n ↔ r.covers n = true ∨ Covered runs n := by
  simp [Covered]

namespace Separated

theorem tail (h : Separated (r :: runs)) : Separated runs :=
  ⟨(List.forall_mem_cons.1 h.ordered).2, h.apart.tail⟩

theorem apart_of_mem (h : Separated (r :: runs)) : ∀ s ∈ runs, Apart r s := by
  induction runs generalizing r with
  | nil => simp
  | cons t runs ih =>
    obtain ⟨hnext, -⟩ := List.isChain_cons_cons.1 h.apart
    refine List.forall_mem_cons.2 ⟨hnext, fun s hs => ?_⟩
    -- What is apart from the next run is further apart from this one.
    have ht : t.Ordered := h.tail.ordered t List.mem_cons_self
    have hrest := ih h.tail s hs
    simp only [Apart, Ordered] at *
    omega

theorem pairwise (h : Separated runs) : runs.Pairwise Apart := by
  induction runs with
  | nil => exact .nil
  | cons r runs ih => exact List.pairwise_cons.2 ⟨h.apart_of_mem, ih h.tail⟩

theorem apart_or_apart (h : Separated runs) (hr : r ∈ runs) (hs : s ∈ runs) (hne : r ≠ s) :
    Apart r s ∨ Apart s r := by
  have : Std.Symm fun r s : Run => Apart r s ∨ Apart s r := ⟨fun _ _ => Or.symm⟩
  have hpairwise : runs.Pairwise fun r s => Apart r s ∨ Apart s r := h.pairwise.imp Or.inl
  exact hpairwise.forall hr hs hne

/-- The number directly behind a run is in none of the runs. -/
theorem not_covered_behind (h : Separated runs) (hr : r ∈ runs) :
    ¬Covered runs (r.last.toInt + 1) := by
  rintro ⟨s, hs, hcovers⟩
  obtain ⟨hfirst, hlast⟩ := covers_iff.1 hcovers
  have hne : r ≠ s := by
    rintro rfl
    omega
  have hordered : r.Ordered := h.ordered r hr
  have happart := h.apart_or_apart hr hs hne
  simp only [Apart, Ordered] at happart hordered
  omega

theorem covered_first (h : Separated (r :: runs)) : Covered (r :: runs) r.first.toInt :=
  ⟨r, List.mem_cons_self, (h.ordered r List.mem_cons_self).covers_first⟩

/-- The first run starts at the least number covered. -/
theorem first_le (h : Separated (r :: runs)) (hn : Covered (r :: runs) n) :
    r.first.toInt ≤ n := by
  obtain hn | ⟨s, hs, hn⟩ := covered_cons.1 hn
  · exact (covers_iff.1 hn).1
  · have hr : r.Ordered := h.ordered r List.mem_cons_self
    have happart := h.apart_of_mem s hs
    have hfirst := (covers_iff.1 hn).1
    simp only [Apart, Ordered] at happart hr
    omega

/-- The other runs cover what lies behind the first one. -/
theorem covered_tail_iff (h : Separated (r :: runs)) :
    Covered runs n ↔ Covered (r :: runs) n ∧ r.last.toInt < n := by
  constructor
  · rintro ⟨s, hs, hn⟩
    have happart := h.apart_of_mem s hs
    have hfirst := (covers_iff.1 hn).1
    simp only [Apart] at happart
    exact ⟨covered_cons.2 (.inr ⟨s, hs, hn⟩), by omega⟩
  · rintro ⟨hn, hlast⟩
    refine (covered_cons.1 hn).resolve_left fun hfirst => ?_
    exact absurd (covers_iff.1 hfirst).2 (not_le.2 hlast)

/-- A run that starts with the first one ends no later, when all it covers is covered. -/
theorem le_last (h : Separated (r :: runs)) (hfirst : s.first.toInt = r.first.toInt)
    (hcovered : ∀ n, s.covers n = true → Covered (r :: runs) n) :
    s.last.toInt ≤ r.last.toInt := by
  by_contra! hlt
  have hordered : r.Ordered := h.ordered r List.mem_cons_self
  rw [Ordered] at hordered
  refine h.not_covered_behind List.mem_cons_self (hcovered _ ?_)
  exact covers_iff.2 ⟨by omega, by omega⟩

/-- Separated runs are determined by what they cover. -/
theorem eq_of_covered_iff {a b : List Run} (ha : Separated a) (hb : Separated b)
    (h : ∀ n, Covered a n ↔ Covered b n) : a = b := by
  induction a generalizing b with
  | nil =>
    cases b with
    | nil => rfl
    | cons s b =>
      obtain ⟨r, hr, -⟩ := (h _).2 hb.covered_first
      cases hr
  | cons r a ih =>
    cases b with
    | nil =>
      obtain ⟨s, hs, -⟩ := (h _).1 ha.covered_first
      cases hs
    | cons s b =>
      have hfirst : r.first.toInt = s.first.toInt :=
        le_antisymm (ha.first_le ((h _).2 hb.covered_first))
          (hb.first_le ((h _).1 ha.covered_first))
      have hlast : r.last.toInt = s.last.toInt :=
        le_antisymm (hb.le_last hfirst fun n hn => (h n).1 (covered_cons.2 (.inl hn)))
          (ha.le_last hfirst.symm fun n hn => (h n).2 (covered_cons.2 (.inl hn)))
      have hrest : a = b := ih ha.tail hb.tail fun n => by
        rw [ha.covered_tail_iff, hb.covered_tail_iff, h n, hlast]
      rw [hrest, show r = s from
        congrArg₂ Run.mk (Int32.toInt_inj.1 hfirst) (Int32.toInt_inj.1 hlast)]

/-! ### Covers by intervals -/

/-- Separated runs are no more than the intervals of any cover of the same numbers. -/
theorem length_le (h : Separated runs) {intervals : List (Set Int)}
    (hintervals : ∀ i ∈ intervals, i.OrdConnected)
    (hcover : ∀ n, (∃ i ∈ intervals, n ∈ i) ↔ Covered runs n) :
    runs.length ≤ intervals.length := by
  -- Every run has an interval that its first number lies in.
  have hinterval : ∀ r ∈ runs, ∃ i ∈ intervals, r.first.toInt ∈ i := fun r hr =>
    (hcover _).2 ⟨r, hr, (h.ordered r hr).covers_first⟩
  choose! interval hmem hfirst using hinterval
  -- The gap behind a run would belong to the interval that it shares with a later run.
  have hnodup : (runs.map interval).Nodup := by
    refine List.pairwise_map.2 (h.pairwise.imp_of_mem fun {r s} hr hs happart heq => ?_)
    have hordered : r.Ordered := h.ordered r hr
    simp only [Apart, Ordered] at happart hordered
    have hconnected := hintervals _ (hmem s hs)
    have hgap : r.last.toInt + 1 ∈ interval s :=
      hconnected.out (heq ▸ hfirst r hr) (hfirst s hs) ⟨by omega, by omega⟩
    exact h.not_covered_behind hr ((hcover _).1 ⟨_, hmem s hs, hgap⟩)
  have hsubset : runs.map interval ⊆ intervals := by
    intro i hi
    obtain ⟨r, hr, rfl⟩ := List.mem_map.1 hi
    exact hmem r hr
  simpa using (List.subperm_of_subset hnodup hsubset).length_le

end Separated

/-! ## The runs of a list -/

theorem covered_group : Covered (group counts) n ↔ ∃ c ∈ counts, c.toInt = n := by
  simpa [Covered, List.any_eq_true] using Bool.eq_iff_iff.1 ((group_spec counts).2 n)

/-- A count below all runs joins the first of them or is apart from it. -/
theorem Separated.prepend (h : Separated runs) {count : Int32}
    (hbelow : ∀ r ∈ runs, count.toInt < r.first.toInt) : Separated (prepend count runs) := by
  cases runs with
  | nil => exact ⟨by simp [Run.prepend, ordered_single], .singleton _⟩
  | cons r rest =>
    obtain ⟨hr, hrest⟩ := List.forall_mem_cons.1 h.ordered
    rw [Run.prepend]
    split_ifs with hfollows
    · obtain ⟨hnext, hchain⟩ := List.isChain_cons.1 h.apart
      exact ⟨List.forall_mem_cons.2 ⟨ordered_extend hr hfollows, hrest⟩,
        List.isChain_cons.2 ⟨hnext, hchain⟩⟩
    · have hlt := hbelow r List.mem_cons_self
      have happart : Apart (single count) r := by
        simp only [Apart, Follows, single] at hfollows ⊢
        omega
      exact ⟨List.forall_mem_cons.2 ⟨ordered_single count, h.ordered⟩,
        List.isChain_cons_cons.2 ⟨happart, h.apart⟩⟩

theorem separated_group (h : counts.Pairwise (· < ·)) : Separated (group counts) := by
  induction counts with
  | nil => exact ⟨by simp [group], .nil⟩
  | cons c counts ih =>
    obtain ⟨hfirst, hrest⟩ := List.pairwise_cons.1 h
    refine (ih hrest).prepend fun r hr => ?_
    -- A run starts with a count that it covers.
    have hordered : r.Ordered := (ih hrest).ordered r hr
    obtain ⟨d, hd, heq⟩ := covered_group.1 ⟨r, hr, hordered.covers_first⟩
    exact heq ▸ Int32.lt_iff_toInt_lt.1 (hfirst d hd)

theorem separated_cover (counts : List Int32) : Separated (cover counts) :=
  separated_group (pairwise_distinct counts)

theorem covered_cover : Covered (cover counts) n ↔ ∃ c ∈ counts, c.toInt = n := by
  rw [cover, covered_group]
  simp only [mem_distinct]

/-- Separated runs that cover the counts of a list and nothing else. -/
structure Decomposes (runs : List Run) (counts : List Int32) : Prop extends Separated runs where
  covered_iff : ∀ n : Int, Covered runs n ↔ ∃ c ∈ counts, c.toInt = n

/-- Intervals whose union is the set of the counts in a list. -/
structure IntervalCover (intervals : List (Set Int)) (counts : List Int32) : Prop where
  connected : ∀ i ∈ intervals, i.OrdConnected
  mem_iff : ∀ n : Int, (∃ i ∈ intervals, n ∈ i) ↔ ∃ c ∈ counts, c.toInt = n

theorem decomposes_iff : Decomposes runs counts ↔ runs = cover counts := by
  constructor
  · intro h
    refine h.toSeparated.eq_of_covered_iff (separated_cover counts) fun n => ?_
    rw [covered_cover]
    exact h.covered_iff n
  · rintro rfl
    exact ⟨separated_cover counts, fun n => covered_cover⟩

/-- The numbers of the runs themselves are a cover. -/
theorem intervalCover_cover (counts : List Int32) :
    IntervalCover ((cover counts).map fun r => Set.Icc r.first.toInt r.last.toInt) counts where
  connected i hi := by
    obtain ⟨r, -, rfl⟩ := List.mem_map.1 hi
    exact Set.ordConnected_Icc
  mem_iff n := by
    rw [← covered_cover]
    simp [Covered, covers_iff]

/-- The runs of a list of counts are the only separated runs that cover them, the ranges among them
are the runs of several numbers, and no cover by intervals has fewer. -/
theorem cover_unique_and_least (counts : List Int32) :
    (∀ runs, Decomposes runs counts ↔ runs = cover counts) ∧
    (∀ r : Run, r.isRange = true ↔ ∃ m n, m < n ∧ r.covers m = true ∧ r.covers n = true) ∧
    IsLeast {k | ∃ intervals, IntervalCover intervals counts ∧ intervals.length = k}
      (cover counts).length := by
  refine ⟨fun runs => decomposes_iff, fun r => isRange_iff, ?_, ?_⟩
  · exact ⟨_, intervalCover_cover counts, List.length_map _⟩
  · rintro _ ⟨intervals, h, rfl⟩
    refine (separated_cover counts).length_le h.connected fun n => ?_
    rw [covered_cover]
    exact h.mem_iff n

end Run

end CellularShader
