/- # Runs of equal chances

The runs of a map of chances hold each of its counts once, in ascending order, with the chance of
the first count in each. Chances are compared as numbers: the two zeros are equal, and a chance that
is no number is not even equal to itself, so it stands alone. What one count does to the runs behind
it carries all of this from the last count of the map to the first.
-/

import CellularShader.Proofs.Count.Decomposition
import CellularShader.Proofs.Count.Dormant
import CellularShader.Proofs.SortedMap

namespace CellularShader

namespace Binary

variable {F : Format} {x y z : Binary F}

theorem equals_symm (h : x.equals y = true) : y.equals x = true := by
  obtain ⟨hx, hy, hvalue⟩ := equals_iff.1 h
  exact equals_iff.2 ⟨hy, hx, hvalue.symm⟩

theorem equals_trans (hxy : x.equals y = true) (hyz : y.equals z = true) : x.equals z = true :=
  equals_of_equals hxy (equals_symm hyz)

end Binary

namespace Run

/-- The numbers of a run in ascending order. -/
def numbers (r : Run) : List Int :=
  (List.range (r.last.toInt - r.first.toInt + 1).toNat).map fun i : Nat => r.first.toInt + i

theorem numbers_single (count : Int32) : (single count).numbers = [count.toInt] := by
  simp [numbers, single]

theorem mem_numbers {r : Run} {n : Int} : n ∈ r.numbers ↔ r.covers n = true := by
  rw [covers_iff, numbers, List.mem_map]
  constructor
  · rintro ⟨i, hi, rfl⟩
    rw [List.mem_range] at hi
    omega
  · intro h
    exact ⟨(n - r.first.toInt).toNat, List.mem_range.2 (by omega), by omega⟩

/-- A run that starts directly after a count has one number more when it is extended. -/
theorem numbers_extend {r : Run} (h : r.Ordered) {count : Int32}
    (hfollows : Follows r.first count) :
    (⟨count, r.last⟩ : Run).numbers = count.toInt :: r.numbers := by
  simp only [Ordered, Follows] at h hfollows
  have hlength : (r.last.toInt - count.toInt + 1).toNat =
      (r.last.toInt - r.first.toInt + 1).toNat + 1 := by omega
  rw [numbers, hlength, List.range_succ_eq_map, List.map_cons, List.map_map, numbers]
  refine congrArg₂ List.cons (Int.add_zero _) (List.map_congr_left fun i _ => ?_)
  simp only [Function.comp_apply, Nat.succ_eq_add_one]
  omega

end Run

namespace ChanceRun

variable {entry : Int32 × Double} {entries : List (Int32 × Double)} {r : ChanceRun}
  {runs : List ChanceRun}

/-- Runs that hold the counts of some entries: all of them in the same order, each run with the
chance of its first count, which equals those of the others in it, and with another chance than the
run before when that ends directly before it. -/
structure Partitions (runs : List ChanceRun) (entries : List (Int32 × Double)) : Prop where
  ordered : ∀ r ∈ runs, r.run.Ordered
  numbers : runs.flatMap (·.run.numbers) = entries.map (·.1.toInt)
  first_mem : ∀ r ∈ runs, (r.run.first, r.chance) ∈ entries
  equals : ∀ r ∈ runs, ∀ e ∈ entries, r.run.covers e.1.toInt = true → e.1 ≠ r.run.first →
    r.chance.equals e.2 = true
  apart : runs.IsChain fun r s => Run.Follows s.run.first r.run.last →
    r.chance.equals s.chance = false

namespace Partitions

/-- A count below all entries is in none of their runs. -/
theorem not_covers (h : Partitions runs entries) (hbelow : ∀ e ∈ entries, entry.1 < e.1) :
    ∀ r ∈ runs, ¬r.run.covers entry.1.toInt = true := by
  intro r hr hcovers
  have hlt := Int32.lt_iff_toInt_lt.1 (hbelow _ (h.first_mem r hr))
  exact absurd (Run.covers_iff.1 hcovers).1 (not_le.2 hlt)

/-- A count that does not join the first run becomes a run of its own. -/
theorem cons_single (h : Partitions runs entries) (hbelow : ∀ e ∈ entries, entry.1 < e.1)
    (hapart : ∀ r ∈ runs.head?,
      ¬(Run.Follows r.run.first entry.1 ∧ entry.2.equals r.chance = true)) :
    Partitions (⟨.single entry.1, entry.2⟩ :: runs) (entry :: entries) where
  ordered := List.forall_mem_cons.2 ⟨Run.ordered_single _, h.ordered⟩
  numbers := by
    rw [List.flatMap_cons, Run.numbers_single, h.numbers]
    rfl
  first_mem := List.forall_mem_cons.2
    ⟨List.mem_cons_self, fun r hr => List.mem_cons_of_mem _ (h.first_mem r hr)⟩
  equals := by
    refine List.forall_mem_cons.2 ⟨fun e _ hcovers hne => ?_, fun r hr =>
      List.forall_mem_cons.2 ⟨fun hcovers => ?_, h.equals r hr⟩⟩
    · rw [Run.covers_single, decide_eq_true_eq] at hcovers
      exact absurd (Int32.toInt_inj.1 hcovers).symm hne
    · exact absurd hcovers (h.not_covers hbelow r hr)
  apart := by
    refine List.isChain_cons.2 ⟨fun r hr hfollows => ?_, h.apart⟩
    exact Bool.eq_false_of_not_eq_true fun hequals => hapart r hr ⟨hfollows, hequals⟩

/-- A count with an equal chance extends the run that starts directly after it. -/
theorem cons_extend (h : Partitions (r :: runs) entries) (hdistinct : SortedMap.Distinct entries)
    (hbelow : ∀ e ∈ entries, entry.1 < e.1) (hfollows : Run.Follows r.run.first entry.1)
    (hequals : entry.2.equals r.chance = true) :
    Partitions (⟨⟨entry.1, r.run.last⟩, entry.2⟩ :: runs) (entry :: entries) := by
  obtain ⟨hordered, hrest⟩ := List.forall_mem_cons.1 h.ordered
  obtain ⟨hfirst, hfirsts⟩ := List.forall_mem_cons.1 h.first_mem
  obtain ⟨hagree, hagrees⟩ := List.forall_mem_cons.1 h.equals
  have hnumbers := h.numbers
  rw [List.flatMap_cons] at hnumbers
  constructor
  case ordered => exact List.forall_mem_cons.2 ⟨Run.ordered_extend hordered hfollows, hrest⟩
  case numbers =>
    rw [List.flatMap_cons, Run.numbers_extend hordered hfollows, List.cons_append, hnumbers]
    rfl
  case first_mem =>
    exact List.forall_mem_cons.2
      ⟨List.mem_cons_self, fun s hs => List.mem_cons_of_mem _ (hfirsts s hs)⟩
  case equals =>
    refine List.forall_mem_cons.2 ⟨List.forall_mem_cons.2 ⟨fun _ hne => absurd rfl hne,
      fun e he hcovers _ => ?_⟩, fun s hs => List.forall_mem_cons.2
        ⟨fun hcovers => ?_, hagrees s hs⟩⟩
    · -- The run is entered at its old first count, whose chance the new one equals.
      by_cases hkey : e.1 = r.run.first
      · rw [congrArg Prod.snd (hdistinct.eq_of_mem he hfirst hkey)]
        exact hequals
      · have hlt := Int32.lt_iff_toInt_lt.1 (hbelow e he)
        rw [Run.covers_extend hordered hfollows, decide_eq_false (ne_of_lt hlt),
          Bool.false_or] at hcovers
        exact Binary.equals_trans hequals (hagree e he hcovers hkey)
    · exact absurd hcovers (h.not_covers hbelow s (List.mem_cons_of_mem _ hs))
  case apart =>
    obtain ⟨hnext, hchain⟩ := List.isChain_cons.1 h.apart
    refine List.isChain_cons.2 ⟨fun s hs hbehind => ?_, hchain⟩
    refine Bool.eq_false_of_not_eq_true fun hsame => ?_
    have hjoined := Binary.equals_trans (Binary.equals_symm hequals) hsame
    rw [hnext s hs hbehind] at hjoined
    cases hjoined

/-- Putting a count before the runs keeps them in step with the entries. -/
theorem prepend (h : Partitions runs entries) (hdistinct : SortedMap.Distinct entries)
    (hbelow : ∀ e ∈ entries, entry.1 < e.1) :
    Partitions (prepend entry runs) (entry :: entries) := by
  by_cases hapart : ∀ r ∈ runs.head?,
      ¬(Run.Follows r.run.first entry.1 ∧ entry.2.equals r.chance = true)
  · rw [prepend_of_apart hapart]
    exact h.cons_single hbelow hapart
  · push Not at hapart
    obtain ⟨r, hr, hjoin⟩ := hapart
    obtain ⟨rest, rfl⟩ := List.head?_eq_some_iff.1 hr
    rw [ChanceRun.prepend, if_pos hjoin]
    exact h.cons_extend hdistinct hbelow hjoin.1 hjoin.2

/-- A count whose chance is no number is alone in its run. -/
theorem eq_single_of_isNaN (h : Partitions runs entries) (hdistinct : SortedMap.Distinct entries)
    {e : Int32 × Double} (he : e ∈ entries) (hnan : e.2.isNaN = true) (hr : r ∈ runs)
    (hcovers : r.run.covers e.1.toInt = true) : r.run = .single e.1 := by
  -- Nothing equals the chance, so the count is the first of its run and no other follows.
  have hnone (x : Double) : ¬x.equals e.2 = true := by
    intro hequals
    rw [(Binary.equals_iff.1 hequals).2.1] at hnan
    cases hnan
  have hfirst : e.1 = r.run.first := by
    by_contra hne
    exact hnone _ (h.equals r hr e he hcovers hne)
  have hchance : e.2 = r.chance :=
    congrArg Prod.snd (hdistinct.eq_of_mem he (h.first_mem r hr) hfirst)
  have hlast : r.run.last = r.run.first := by
    by_contra hne
    have hend : r.run.covers r.run.last.toInt = true := Run.covers_iff.2 ⟨h.ordered r hr, le_rfl⟩
    have hnumber : r.run.last.toInt ∈ runs.flatMap (·.run.numbers) :=
      List.mem_flatMap.2 ⟨r, hr, Run.mem_numbers.2 hend⟩
    rw [h.numbers] at hnumber
    obtain ⟨f, hf, hkey⟩ := List.mem_map.1 hnumber
    have hequals : r.chance.equals f.2 = true :=
      h.equals r hr f hf (hkey ▸ hend) (Int32.toInt_inj.1 hkey ▸ hne)
    exact hnone _ (hchance ▸ Binary.equals_symm hequals)
  exact congrArg₂ Run.mk hfirst.symm (hlast.trans hfirst.symm)

end Partitions

theorem partitions_foldr (h : entries.Pairwise fun a b => a.1 < b.1) :
    Partitions (entries.foldr prepend []) entries := by
  induction entries with
  | nil => exact ⟨by simp, rfl, by simp, by simp, .nil⟩
  | cons e entries ih =>
    obtain ⟨hbelow, hrest⟩ := List.pairwise_cons.1 h
    have hdistinct : SortedMap.Distinct entries := SortedMap.distinct_entries ⟨entries, hrest⟩
    exact (ih hrest).prepend hdistinct hbelow

theorem partitions_cover (chances : Chances) : Partitions (cover chances) chances.entries :=
  partitions_foldr chances.ascending

/-- The runs of a map of chances hold its counts in ascending order, each once. A run has the chance
of its first count bit for bit, and those of its other counts equal it. A count whose chance is no
number is alone. A run that starts directly after another does not have an equal chance. -/
theorem cover_partitions_chances (chances : Chances) :
    (cover chances).flatMap (·.run.numbers) = chances.keys.map (·.toInt) ∧
    (chances.keys.map (·.toInt)).Pairwise (· < ·) ∧
    (∀ r ∈ cover chances, r.run.Ordered ∧ (r.run.first, r.chance) ∈ chances.entries ∧
      ∀ e ∈ chances.entries, r.run.covers e.1.toInt = true → e.1 ≠ r.run.first →
        r.chance.equals e.2 = true) ∧
    (∀ e ∈ chances.entries, e.2.isNaN = true →
      ∀ r ∈ cover chances, r.run.covers e.1.toInt = true → r.run = .single e.1) ∧
    (cover chances).IsChain fun r s => Run.Follows s.run.first r.run.last →
      r.chance.equals s.chance = false := by
  have h := partitions_cover chances
  refine ⟨?_, ?_, fun r hr => ⟨h.ordered r hr, h.first_mem r hr, h.equals r hr⟩,
    fun e he hnan r hr hcovers => ?_, h.apart⟩
  · rw [h.numbers, SortedMap.keys, List.map_map]
    rfl
  · rw [SortedMap.keys, List.map_map]
    exact List.pairwise_map.2 (chances.ascending.imp Int32.lt_iff_toInt_lt.1)
  · exact h.eq_single_of_isNaN chances.distinct_entries he hnan hr hcovers

/-- The two zeros share a run up to the greatest count, and two chances that are no numbers do not,
although they have the same bits. -/
theorem cover_partitions_chances_zeros :
    let zero : Double := .ofBits .double 0
    let minusZero : Double := .ofBits .double 0x8000000000000000
    let nan : Double := .ofBits .double 0x7ff8000000000000
    let chances : Chances := .ofList
      [(1, nan), (2, nan), (.maxValue - 1, zero), (.maxValue, minusZero)]
    cover chances = [⟨.single 1, nan⟩, ⟨.single 2, nan⟩, ⟨⟨.maxValue - 1, .maxValue⟩, zero⟩] ∧
      (zero ≠ minusZero ∧ zero.equals minusZero = true) ∧ nan.isNaN = true ∧
      ∀ r ∈ cover chances, r.run.covers 2 = true → r.run = .single 2 := by
  intro zero minusZero nan chances
  have hcover : cover chances =
      [⟨.single 1, nan⟩, ⟨.single 2, nan⟩, ⟨⟨.maxValue - 1, .maxValue⟩, zero⟩] := by
    decide +kernel
  have hzero : (.maxValue, minusZero) ∈ chances.entries := by decide +kernel
  have hnan : (2, nan) ∈ chances.entries := by decide +kernel
  obtain ⟨-, -, hruns, halone, -⟩ := cover_partitions_chances chances
  obtain ⟨-, -, hequals⟩ := hruns ⟨⟨.maxValue - 1, .maxValue⟩, zero⟩ (by simp [hcover])
  exact ⟨hcover, ⟨by decide, hequals _ hzero (by decide) (by decide)⟩, by decide,
    halone _ hnan (by decide)⟩

end ChanceRun

end CellularShader
