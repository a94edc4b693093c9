/- # The shapes of the standard neighbourhoods

The coordinates up to a radius are a line of odd length, and the points over three such lines come
in the order of their last, second and first coordinate. A neighbourhood keeps the points of its
shape in that order. A cube has as many points as its side says. An octahedron is made of discs, and
a disc of lines, each narrower by one the further it is from the middle, so its size is a sum of
odd numbers twice over.
-/

import CellularShader.Neighbourhood.Shape
import CellularShader.Volume
import Mathlib.Algebra.BigOperators.Group.List.Basic
import Mathlib.Algebra.BigOperators.Intervals
import Mathlib.Data.List.Nodup
import Mathlib.Tactic.Linarith
import Mathlib.Tactic.Ring

namespace CellularShader

open Finset (range)

namespace Point

/-! ## Distances -/

theorem natCast_chebyshev (p : Point) : (p.chebyshev : Int) = max (max |p.x| |p.y|) |p.z| := by
  simp [chebyshev]

theorem natCast_manhattan (p : Point) : (p.manhattan : Int) = |p.x| + |p.y| + |p.z| := by
  simp [manhattan]

theorem chebyshev_le_manhattan (p : Point) : p.chebyshev ≤ p.manhattan := by
  simp only [chebyshev, manhattan, Nat.max_le]
  omega

/-! ## Lines -/

/-- The coordinates from `-n` to `n`. -/
def line (n : Nat) : List Int := (List.range (2 * n + 1)).map fun i : Nat => (i : Int) - n

variable {n s : Nat} {p : Point}

theorem mem_line {c : Int} : c ∈ line n ↔ c.natAbs ≤ n := by
  simp only [line, List.mem_map, List.mem_range]
  constructor
  · rintro ⟨i, hi, rfl⟩
    omega
  · intro h
    exact ⟨(c + n).toNat, by omega, by omega⟩

theorem length_line (n : Nat) : (line n).length = 2 * n + 1 := by simp [line]

theorem pairwise_line (n : Nat) : (line n).Pairwise (· < ·) := by
  rw [line, List.pairwise_map]
  exact List.pairwise_lt_range.imp fun h => by omega

/-- A longer line has one coordinate more at either end. -/
theorem line_succ (n : Nat) : line (n + 1) = -(n + 1 : Int) :: (line n ++ [(n + 1 : Int)]) := by
  have hrange : List.range (2 * (n + 1) + 1) =
      0 :: ((List.range (2 * n + 1)).map Nat.succ ++ [2 * n + 2]) := by
    rw [List.range_succ_eq_map, show 2 * (n + 1) = 2 * n + 1 + 1 by ring, List.range_succ,
      List.map_append]
    rfl
  have hinner : (List.range (2 * n + 1)).map
      (fun i : Nat => ((i.succ : Nat) : Int) - (n + 1 : Nat)) = line n := by
    refine List.map_congr_left fun i _ => ?_
    omega
  rw [line, hrange, List.map_cons, List.map_append, List.map_map]
  refine congrArg₂ List.cons (by omega) (congrArg₂ List.append hinner ?_)
  exact congrArg ([·]) (show ((2 * n + 2 : Nat) : Int) - (n + 1 : Nat) = n + 1 by omega)

/-- The two halves of a line are mirror images. -/
theorem sum_line (f : Nat → Nat) (n : Nat) :
    ((line n).map fun c => f c.natAbs).sum = f 0 + 2 * ∑ k ∈ range n, f (k + 1) := by
  induction n with
  | zero => simp [line]
  | succ n ih =>
    have hend : (n + 1 : Int).natAbs = n + 1 := by omega
    simp only [line_succ, List.map_cons, List.map_append, List.map_nil, List.sum_cons,
      List.sum_append, List.sum_nil, ih, Int.natAbs_neg, hend, Finset.sum_range_succ]
    ring

/-- Counted from the ends of the line, the middle comes last. -/
theorem sum_line_from_ends (f : Nat → Nat) (n : Nat) :
    ((line n).map fun c => f (n - c.natAbs)).sum = f n + 2 * ∑ k ∈ range n, f k := by
  rw [sum_line fun k => f (n - k), ← Finset.sum_range_reflect f n]
  simp only [Nat.sub_zero, Nat.sub_sub, Nat.add_comm 1]

/-- Coordinates that contribute nothing can be left out at the ends. -/
theorem sum_line_of_zero {f : Int → Nat} (hs : s ≤ n) (hf : ∀ c, s < c.natAbs → f c = 0) :
    ((line n).map f).sum = ((line s).map f).sum := by
  induction n, hs using Nat.le_induction with
  | base => rfl
  | succ n hn ih =>
    rw [line_succ, List.map_cons, List.map_append, List.sum_cons, List.sum_append, ih,
      hf _ (by omega)]
    simp [hf (n + 1 : Int) (by omega)]

/-! ## Cubes -/

/-- The order in which points are listed. -/
def Before (p q : Point) : Prop :=
  p.z < q.z ∨ p.z = q.z ∧ (p.y < q.y ∨ p.y = q.y ∧ p.x < q.x)

/-- The points over three lines. -/
def block (n : Nat) : List Point :=
  (line n).flatMap fun z => (line n).flatMap fun y => (line n).map fun x => ⟨x, y, z⟩

theorem mem_block : p ∈ block n ↔ p.chebyshev ≤ n := by
  simp only [block, List.mem_flatMap, List.mem_map, mem_line, chebyshev, Nat.max_le]
  constructor
  · rintro ⟨z, hz, y, hy, x, hx, rfl⟩
    exact ⟨⟨hx, hy⟩, hz⟩
  · rintro ⟨⟨hx, hy⟩, hz⟩
    exact ⟨p.z, hz, p.y, hy, p.x, hx, rfl⟩

theorem pairwise_block (n : Nat) : (block n).Pairwise Before := by
  rw [block, List.pairwise_flatMap]
  refine ⟨fun z _ => ?_, (pairwise_line n).imp fun hz p hp q hq => ?_⟩
  · rw [List.pairwise_flatMap]
    refine ⟨fun y _ => ?_, (pairwise_line n).imp fun hy p hp q hq => ?_⟩
    · rw [List.pairwise_map]
      exact (pairwise_line n).imp fun hx => .inr ⟨rfl, .inr ⟨rfl, hx⟩⟩
    · obtain ⟨x, -, rfl⟩ := List.mem_map.1 hp
      obtain ⟨x', -, rfl⟩ := List.mem_map.1 hq
      exact .inr ⟨rfl, .inl hy⟩
  · simp only [List.mem_flatMap, List.mem_map] at hp hq
    obtain ⟨y, -, x, -, rfl⟩ := hp
    obtain ⟨y', -, x', -, rfl⟩ := hq
    exact .inl hz

theorem nodup_block (n : Nat) : (block n).Nodup := by
  refine (pairwise_block n).imp fun h heq => ?_
  simp only [Before, heq, lt_irrefl, and_false, or_self] at h

theorem length_block (n : Nat) : (block n).length = (2 * n + 1) ^ 3 := by
  simp only [block, List.length_flatMap, List.length_map, length_line, List.map_const',
    List.sum_replicate, nsmul_eq_mul]
  push_cast
  ring

/-! ## Octahedra -/

/-- A shorter line inside a longer one. -/
theorem countP_line (hs : s ≤ n) : ((line n).countP fun c => c.natAbs ≤ s) = 2 * s + 1 := by
  induction n, hs using Nat.le_induction with
  | base =>
    rw [← length_line, List.countP_eq_length]
    exact fun c hc => decide_eq_true (mem_line.1 hc)
  | succ n hn ih =>
    have hbefore : ¬(-(n + 1 : Int)).natAbs ≤ s := by omega
    have hbehind : ¬(n + 1 : Int).natAbs ≤ s := by omega
    rw [line_succ, List.countP_cons_of_neg (by simpa using hbefore), List.countP_append, ih,
      List.countP_singleton, if_neg (by simpa using hbehind), Nat.add_zero]

theorem sum_odd (n : Nat) : ∑ k ∈ range n, (2 * k + 1) = n ^ 2 := by
  induction n with
  | zero => rfl
  | succ n ih =>
    rw [Finset.sum_range_succ, ih]
    ring

/-- The size of a disc in the Manhattan metric. -/
theorem sum_countP_line (hs : s ≤ n) :
    ((line n).map fun b => (line n).countP fun a => a.natAbs + b.natAbs ≤ s).sum =
      2 * s ^ 2 + 2 * s + 1 := by
  have hinside (b : Int) (hb : b ∈ line s) :
      ((line n).countP fun a => a.natAbs + b.natAbs ≤ s) = 2 * (s - b.natAbs) + 1 := by
    rw [mem_line] at hb
    rw [← countP_line (show s - b.natAbs ≤ n by omega)]
    refine List.countP_congr fun a _ => ?_
    simp only [decide_eq_true_eq]
    omega
  have houtside (b : Int) (hb : s < b.natAbs) :
      ((line n).countP fun a => a.natAbs + b.natAbs ≤ s) = 0 := by
    refine List.countP_eq_zero.2 fun a _ => ?_
    simp only [decide_eq_true_eq]
    omega
  rw [sum_line_of_zero hs houtside, List.map_congr_left hinside,
    sum_line_from_ends fun k => 2 * k + 1, sum_odd]
  ring

/-- The size of an octahedron. -/
theorem countP_block (n : Nat) :
    3 * (block n).countP (fun p => p.manhattan ≤ n) = (2 * n + 1) * (2 * n ^ 2 + 2 * n + 3) := by
  have hdisc (z : Int) (hz : z ∈ line n) :
      ((line n).flatMap fun y => (line n).map fun x => (⟨x, y, z⟩ : Point)).countP
        (fun p => p.manhattan ≤ n) = 2 * (n - z.natAbs) ^ 2 + 2 * (n - z.natAbs) + 1 := by
    rw [mem_line] at hz
    rw [← sum_countP_line (show n - z.natAbs ≤ n by omega), List.countP_flatMap]
    refine congrArg List.sum (List.map_congr_left fun y _ => ?_)
    rw [Function.comp_apply, List.countP_map]
    refine List.countP_congr fun x _ => ?_
    rw [decide_eq_true_iff, Nat.le_sub_iff_add_le hz]
    exact decide_eq_true_iff
  have hsum (n : Nat) : 3 * (2 * n ^ 2 + 2 * n + 1 + 2 * ∑ k ∈ range n, (2 * k ^ 2 + 2 * k + 1)) =
      (2 * n + 1) * (2 * n ^ 2 + 2 * n + 3) := by
    induction n with
    | zero => rfl
    | succ n ih =>
      rw [Finset.sum_range_succ]
      linarith
  rw [block, List.countP_flatMap]
  refine (congrArg (3 * ·.sum) (List.map_congr_left hdisc)).trans ?_
  rw [sum_line_from_ends fun k => 2 * k ^ 2 + 2 * k + 1, hsum]

end Point

end CellularShader
