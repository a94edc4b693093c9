/- # The standard neighbourhoods enumerate their shapes

Up to a radius of `2 ^ 24` every coordinate is an offset without rounding, so the two standard
neighbourhoods list the points of their shapes exactly, each once and in order. The same lists come
out of loops over signed words in which every negation, addition and conversion is checked.
-/

import CellularShader.Proofs.Binary.Nearest
import CellularShader.Proofs.Neighbourhood.Shape
import CellularShader.Proofs.Neighbourhood.Tally

namespace CellularShader

open Point (block line)

/-- The greatest radius up to which coordinates are offsets without rounding. -/
def exactRadius : Nat := 2 ^ 24

namespace Offset

variable {p : Point}

/-- The offset to a point near the origin is exact. -/
theorem ofPoint_exact (hp : p.chebyshev ≤ exactRadius) :
    (ofPoint p).IsFinite ∧ (ofPoint p).toVec = p.toVec := by
  have hcoordinate {c : Int} (hc : c.natAbs ≤ exactRadius) :
      (Binary.ofInt .single c).isFinite = true ∧ (Binary.ofInt .single c).toRat = c :=
    Binary.toRat_ofInt (hc.trans (by decide)) (by decide)
  simp only [Point.chebyshev, Nat.max_le] at hp
  obtain ⟨⟨hx, hy⟩, hz⟩ := hp
  refine ⟨⟨(hcoordinate hx).1, (hcoordinate hy).1, (hcoordinate hz).1⟩, ?_⟩
  rw [toVec, ofPoint, (hcoordinate hx).2, (hcoordinate hy).2, (hcoordinate hz).2, Point.toVec]

end Offset

namespace Neighbourhood

variable {radius : UInt32} {n : Nat}

/-- The offsets to the points of a shape, the origin left out, each once and in order. -/
def Enumerates (nb : Neighbourhood) (shape : Point → Prop) : Prop :=
  ∃ points : List Point,
    List.Forall₂ (fun o p => o.IsFinite ∧ o.toVec = p.toVec) nb points ∧
    (∀ p, p ∈ points ↔ p ≠ .origin ∧ shape p) ∧ points.Pairwise Point.Before

theorem Enumerates.congr {nb : Neighbourhood} {shape shape' : Point → Prop}
    (h : Enumerates nb shape) (heq : ∀ p, shape p ↔ shape' p) : Enumerates nb shape' := by
  rwa [show shape' = shape from funext fun p => propext (heq p).symm]

/-! ## Points -/

/-- A radius that fits into a signed word keeps its value. -/
theorem toInt_toInt32 (h : radius.toNat < 2 ^ 31) : radius.toInt32.toInt = radius.toNat := by
  have htwice : 2 * radius.toBitVec.toNat < 2 ^ 32 := by
    rw [UInt32.toNat_toBitVec]
    omega
  exact BitVec.toInt_eq_toNat_of_lt htwice

theorem cube_eq_block (h : radius.toNat < 2 ^ 31) : Point.cube radius = block radius.toNat := by
  have hspan : Point.span radius = line radius.toNat := by
    simp only [Point.span, toInt_toInt32 h, line]
    congr 2
  rw [Point.cube, hspan, block]

/-- The points of a block that a neighbourhood keeps. -/
def kept (n : Nat) (shape : Point → Bool) : List Point :=
  (block n).filter fun p => p ≠ .origin ∧ shape p = true

variable {shape : Point → Bool}

theorem mem_kept {p : Point} :
    p ∈ kept n shape ↔ p.chebyshev ≤ n ∧ p ≠ .origin ∧ shape p = true := by
  rw [kept, List.mem_filter, Point.mem_block, decide_eq_true_iff]

theorem enumerates_kept (hn : n ≤ exactRadius) :
    Enumerates ((kept n shape).map .ofPoint) fun p => p.chebyshev ≤ n ∧ shape p = true := by
  refine ⟨kept n shape, ?_, fun p => mem_kept.trans and_left_comm,
    (Point.pairwise_block n).filter _⟩
  rw [List.forall₂_map_left_iff, List.forall₂_same]
  exact fun p hp => Offset.ofPoint_exact ((mem_kept.1 hp).1.trans hn)

/-- Only the origin is left out. -/
theorem length_kept (horigin : shape .origin = true) :
    (kept n shape).length + 1 = (block n).countP shape := by
  have hnodup : ((block n).filter shape).Nodup := (Point.nodup_block n).filter _
  have hmem : Point.origin ∈ (block n).filter shape :=
    List.mem_filter.2 ⟨Point.mem_block.2 (Nat.zero_le n), horigin⟩
  have hkept : kept n shape = ((block n).filter shape).erase .origin := by
    rw [hnodup.erase_eq_filter, List.filter_filter, kept]
    refine List.filter_congr fun p _ => ?_
    simp [Bool.decide_and, bne, beq_eq_decide]
  rw [hkept, List.length_erase_of_mem hmem, List.countP_eq_length_filter]
  exact Nat.sub_add_cancel (List.length_pos_of_mem hmem)

theorem length_kept_chebyshev (n : Nat) :
    (kept n fun p => p.chebyshev ≤ n).length = (2 * n + 1) ^ 3 - 1 := by
  have hcount : (kept n fun p => p.chebyshev ≤ n).length + 1 = _ := length_kept rfl
  rw [List.countP_eq_length.2 fun p hp => decide_eq_true (Point.mem_block.1 hp),
    Point.length_block] at hcount
  exact Nat.eq_sub_of_add_eq hcount

theorem length_kept_manhattan (n : Nat) : (kept n fun p => p.manhattan ≤ n).length =
    (2 * n + 1) * (2 * n ^ 2 + 2 * n + 3) / 3 - 1 := by
  have hcount : (kept n fun p => p.manhattan ≤ n).length + 1 = _ := length_kept rfl
  rw [← Point.countP_block, Nat.mul_div_cancel_left _ (by decide)]
  exact Nat.eq_sub_of_add_eq hcount

theorem moorePoints_eq_kept (h : radius.toNat < 2 ^ 31) :
    moorePoints radius = kept radius.toNat fun p => p.chebyshev ≤ radius.toNat := by
  simp only [moorePoints, cube_eq_block h, kept, decide_eq_true_eq]

theorem vonNeumannPoints_eq_kept (h : radius.toNat < 2 ^ 31) :
    vonNeumannPoints radius = kept radius.toNat fun p => p.manhattan ≤ radius.toNat := by
  simp only [vonNeumannPoints, cube_eq_block h, kept, decide_eq_true_eq]

end Neighbourhood

/-! ## Checked words -/

namespace Word

/-- The signed word of a value. -/
def ofInt? (value : Int) : Option Int32 :=
  if (Int32.ofInt value).toInt = value then some (.ofInt value) else none

def neg? (a : Int32) : Option Int32 := ofInt? (-a.toInt)

def add? (a b : Int32) : Option Int32 := ofInt? (a.toInt + b.toInt)

def abs? (a : Int32) : Option Int32 := if a < 0 then neg? a else some a

/-- A word as a 32-bit number of the same value. -/
def toSingle? (a : Int32) : Option Single :=
  if (Binary.ofInt .single a.toInt).toRat = a.toInt then some (.ofInt .single a.toInt) else none

/-- The words that are reached from a first one by adding one again and again. -/
def countUp? : Nat → Int32 → Option (List Int32)
  | 0, first => some [first]
  | steps + 1, first => do
    let next ← add? first 1
    let others ← countUp? steps next
    return first :: others

variable {a b : Int}

theorem toInt_ofInt (ha : a.natAbs < 2 ^ 31) : (Int32.ofInt a).toInt = a :=
  Int32.toInt_ofInt_of_le (by omega) (by omega)

theorem ofInt?_eq_some (ha : a.natAbs < 2 ^ 31) : ofInt? a = some (.ofInt a) :=
  if_pos (toInt_ofInt ha)

theorem neg?_ofInt (ha : a.natAbs < 2 ^ 31) : neg? (.ofInt a) = some (.ofInt (-a)) := by
  rw [neg?, toInt_ofInt ha, ofInt?_eq_some (by omega)]

theorem add?_ofInt (ha : a.natAbs < 2 ^ 31) (hb : b.natAbs < 2 ^ 31)
    (hsum : (a + b).natAbs < 2 ^ 31) : add? (.ofInt a) (.ofInt b) = some (.ofInt (a + b)) := by
  rw [add?, toInt_ofInt ha, toInt_ofInt hb, ofInt?_eq_some hsum]

theorem abs?_ofInt (ha : a.natAbs < 2 ^ 31) : abs? (.ofInt a) = some (.ofInt a.natAbs) := by
  have hsign : Int32.ofInt a < 0 ↔ a < 0 := by
    rw [Int32.lt_iff_toInt_lt, toInt_ofInt ha, Int32.toInt_zero]
  rcases lt_or_ge a 0 with hneg | hpos
  · rw [abs?, if_pos (hsign.2 hneg), neg?_ofInt ha, Int.ofNat_natAbs_of_nonpos hneg.le]
  · rw [abs?, if_neg (mt hsign.1 hpos.not_gt), Int.natAbs_of_nonneg hpos]

theorem toSingle?_ofInt (ha : a.natAbs ≤ exactRadius) :
    toSingle? (.ofInt a) = some (.ofInt .single a) := by
  have hword : a.natAbs < 2 ^ 31 := ha.trans_lt (by decide)
  have hexact : (Binary.ofInt .single a).toRat = a :=
    (Binary.toRat_ofInt (ha.trans (by decide)) (by decide)).2
  rw [toSingle?, toInt_ofInt hword, if_pos hexact]

theorem countUp?_ofInt (steps : Nat) (ha : a.natAbs < 2 ^ 31)
    (hlast : (a + steps).natAbs < 2 ^ 31) : countUp? steps (.ofInt a) =
      some ((List.range (steps + 1)).map fun i : Nat => .ofInt (a + i)) := by
  induction steps generalizing a with
  | zero => simp [countUp?]
  | succ steps ih =>
    have hnext : add? (.ofInt a) 1 = some (.ofInt (a + 1)) :=
      add?_ofInt (b := 1) ha (by decide) (by omega)
    have hrest := ih (a := a + 1) (by omega) (by omega)
    rw [countUp?, hnext, List.range_succ_eq_map, List.map_cons, List.map_map]
    simp only [Option.bind_eq_bind, Option.bind_some, hrest, Option.pure_def, Nat.cast_zero,
      add_zero, Option.some.injEq, List.cons.injEq, true_and]
    refine List.map_congr_left fun i _ => ?_
    simp only [Function.comp_apply]
    congr 1
    omega

theorem max_ofInt (ha : a.natAbs < 2 ^ 31) (hb : b.natAbs < 2 ^ 31) :
    max (Int32.ofInt a) (.ofInt b) = .ofInt (max a b) := by
  have hle : Int32.ofInt a ≤ .ofInt b ↔ a ≤ b := by
    rw [Int32.le_iff_toInt_le, toInt_ofInt ha, toInt_ofInt hb]
  rcases le_or_gt a b with h | h
  · rw [max_eq_right h]
    exact if_pos (hle.2 h)
  · rw [max_eq_left h.le]
    exact if_neg (mt hle.1 h.not_ge)

theorem ofInt_eq_zero_iff (ha : a.natAbs < 2 ^ 31) : Int32.ofInt a = 0 ↔ a = 0 := by
  rw [← Int32.toInt_inj, toInt_ofInt ha, Int32.toInt_zero]

/-- The unsigned word of a value that is not negative. -/
theorem toNat_toUInt32_ofInt {n : Nat} (hn : n < 2 ^ 31) : (Int32.ofInt n).toUInt32.toNat = n := by
  change (BitVec.ofInt 32 n).toNat = n
  rw [BitVec.toNat_ofInt]
  omega

end Word

namespace Neighbourhood

open Word

/-- The greatest distance along an axis, from checked words. -/
def chebyshev? (x y z : Int32) : Option Int32 := do
  return max (max (← abs? x) (← abs? y)) (← abs? z)

/-- The sum of the distances along the axes, from checked words. -/
def manhattan? (x y z : Int32) : Option Int32 := do
  add? (← add? (← abs? x) (← abs? y)) (← abs? z)

/-- The offset to a point, or none where the point is not kept. -/
def sample? (radius : UInt32) (distance? : Int32 → Int32 → Int32 → Option Int32)
    (x y z : Int32) : Option (List Offset) :=
  if x = 0 ∧ y = 0 ∧ z = 0 then some []
  else do
    let distance ← distance? x y z
    if distance.toUInt32 ≤ radius then
      return [⟨← toSingle? x, ← toSingle? y, ← toSingle? z⟩]
    else
      return []

/-- The points within a distance, from three loops over checked words. -/
def within? (radius : UInt32) (distance? : Int32 → Int32 → Int32 → Option Int32) :
    Option Neighbourhood := do
  let last ← ofInt? radius.toNat
  let first ← neg? last
  let coordinates ← countUp? (last.toInt - first.toInt).toNat first
  coordinates.flatMapM fun z => coordinates.flatMapM fun y => coordinates.flatMapM fun x =>
    sample? radius distance? x y z

variable {p : Point}

theorem natAbs_le_of_chebyshev_le (hp : p.chebyshev ≤ exactRadius) :
    p.x.natAbs ≤ 2 ^ 24 ∧ p.y.natAbs ≤ 2 ^ 24 ∧ p.z.natAbs ≤ 2 ^ 24 := by
  simpa only [Point.chebyshev, Nat.max_le, and_assoc, exactRadius] using hp

theorem chebyshev?_ofInt (hp : p.chebyshev ≤ exactRadius) :
    chebyshev? (.ofInt p.x) (.ofInt p.y) (.ofInt p.z) = some (.ofInt p.chebyshev) := by
  obtain ⟨hx, hy, hz⟩ := natAbs_le_of_chebyshev_le hp
  rw [chebyshev?, abs?_ofInt (by omega), abs?_ofInt (by omega), abs?_ofInt (by omega)]
  simp only [Option.bind_eq_bind, Option.bind_some, Option.pure_def, Option.some.injEq]
  rw [max_ofInt (by omega) (by omega), max_ofInt (by omega) (by omega)]
  simp [Point.chebyshev]

theorem manhattan?_ofInt (hp : p.chebyshev ≤ exactRadius) :
    manhattan? (.ofInt p.x) (.ofInt p.y) (.ofInt p.z) = some (.ofInt p.manhattan) := by
  obtain ⟨hx, hy, hz⟩ := natAbs_le_of_chebyshev_le hp
  rw [manhattan?, abs?_ofInt (by omega), abs?_ofInt (by omega), abs?_ofInt (by omega)]
  simp only [Option.bind_eq_bind, Option.bind_some]
  rw [add?_ofInt (by omega) (by omega) (by omega), Option.bind_some,
    add?_ofInt (by omega) (by omega) (by omega), Point.manhattan]
  rfl

/-- No check fails where the distance is exact. -/
theorem sample?_eq_some {distance? : Int32 → Int32 → Int32 → Option Int32}
    {distance : Point → Nat} (hp : p.chebyshev ≤ exactRadius) (hdistance : distance p < 2 ^ 31)
    (hexact : distance? (.ofInt p.x) (.ofInt p.y) (.ofInt p.z) = some (.ofInt (distance p))) :
    sample? radius distance? (.ofInt p.x) (.ofInt p.y) (.ofInt p.z) =
      some (if p ≠ .origin ∧ distance p ≤ radius.toNat then [.ofPoint p] else []) := by
  obtain ⟨hx, hy, hz⟩ := natAbs_le_of_chebyshev_le hp
  have horigin : (Int32.ofInt p.x = 0 ∧ Int32.ofInt p.y = 0 ∧ Int32.ofInt p.z = 0) ↔
      p = .origin := by
    rw [ofInt_eq_zero_iff (by omega), ofInt_eq_zero_iff (by omega), ofInt_eq_zero_iff (by omega),
      Point.origin, Point.mk.injEq]
  have hnear : (Int32.ofInt (distance p)).toUInt32 ≤ radius ↔ distance p ≤ radius.toNat := by
    rw [UInt32.le_iff_toNat_le, toNat_toUInt32_ofInt hdistance]
  by_cases hzero : p = .origin
  · rw [sample?, if_pos (horigin.2 hzero), if_neg fun h => h.1 hzero]
  · rw [sample?, if_neg (mt horigin.1 hzero), hexact, toSingle?_ofInt hx, toSingle?_ofInt hy,
      toSingle?_ofInt hz]
    simp only [Option.bind_eq_bind, Option.bind_some, Option.pure_def, hnear]
    by_cases hkept : distance p ≤ radius.toNat
    · rw [if_pos hkept, if_pos ⟨hzero, hkept⟩]
      rfl
    · rw [if_neg hkept, if_neg fun h => hkept h.2]

/-- A loop in which nothing fails. -/
theorem flatMapM_map_eq_some {α β γ : Type} {l : List α} {w : α → γ} {f : γ → Option (List β)}
    {g : α → List β} (h : ∀ a ∈ l, f (w a) = some (g a)) :
    (l.map w).flatMapM f = some (l.flatMap g) := by
  induction l with
  | nil => rfl
  | cons a l ih =>
    rw [List.map_cons, List.flatMapM_cons, h a List.mem_cons_self,
      ih fun b hb => h b (List.mem_cons_of_mem _ hb)]
    rfl

/-- What is kept can be told point by point. -/
theorem map_kept (n : Nat) (shape : Point → Bool) : (kept n shape).map Offset.ofPoint =
    (line n).flatMap fun z => (line n).flatMap fun y => (line n).flatMap fun x =>
      if (⟨x, y, z⟩ : Point) ≠ .origin ∧ shape ⟨x, y, z⟩ = true then [.ofPoint ⟨x, y, z⟩]
      else [] := by
  have hpoints (points : List Point) :
      (points.filter fun p => p ≠ .origin ∧ shape p = true).map Offset.ofPoint =
        points.flatMap fun p => if p ≠ .origin ∧ shape p = true then [.ofPoint p] else [] := by
    induction points with
    | nil => rfl
    | cons p points ih =>
      rw [List.flatMap_cons, List.filter_cons, ← ih]
      by_cases hp : p ≠ .origin ∧ shape p = true
      · simp only [if_pos hp, decide_eq_true hp, if_true, List.map_cons, List.singleton_append]
      · simp only [if_neg hp, decide_eq_false hp, Bool.false_eq_true, if_false, List.nil_append]
  rw [kept, hpoints, block]
  simp only [List.flatMap_assoc, List.flatMap_map]

/-- No check fails in the loops, and they keep what the neighbourhood keeps. -/
theorem within?_eq_some {distance? : Int32 → Int32 → Int32 → Option Int32}
    {distance : Point → Nat} (hradius : radius.toNat ≤ exactRadius)
    (hdistance : ∀ p : Point, p.chebyshev ≤ exactRadius → distance p < 2 ^ 31 ∧
      distance? (.ofInt p.x) (.ofInt p.y) (.ofInt p.z) = some (.ofInt (distance p))) :
    within? radius distance? =
      some ((kept radius.toNat fun p => distance p ≤ radius.toNat).map .ofPoint) := by
  have hn : radius.toNat ≤ 2 ^ 24 := hradius
  generalize hvalue : radius.toNat = n at *
  have hcoordinates : countUp? ((Int32.ofInt n).toInt - (Int32.ofInt (-n)).toInt).toNat
      (.ofInt (-n)) = some ((line n).map Int32.ofInt) := by
    have hsteps : ((n : Int) - -n).toNat = 2 * n := by omega
    rw [toInt_ofInt (by omega), toInt_ofInt (by omega), hsteps,
      countUp?_ofInt _ (by omega) (by omega), line, List.map_map]
    refine congrArg some (List.map_congr_left fun i _ => ?_)
    rw [Function.comp_apply, neg_add_eq_sub]
  rw [within?, hvalue, ofInt?_eq_some (by omega), Option.bind_eq_bind, Option.bind_some,
    neg?_ofInt (by omega), Option.bind_eq_bind, Option.bind_some, hcoordinates, Option.bind_some,
    map_kept]
  refine flatMapM_map_eq_some fun z hz => ?_
  refine flatMapM_map_eq_some fun y hy => ?_
  refine flatMapM_map_eq_some fun x hx => ?_
  have hp : (⟨x, y, z⟩ : Point).chebyshev ≤ exactRadius := by
    rw [Point.mem_line] at hx hy hz
    simp only [Point.chebyshev, Nat.max_le]
    exact ⟨⟨hx.trans hn, hy.trans hn⟩, hz.trans hn⟩
  obtain ⟨hlt, hexact⟩ := hdistance _ hp
  rw [sample?_eq_some hp hlt hexact, hvalue]
  simp only [decide_eq_true_eq]

/-! ## The shapes -/

/-- Up to the radius at which coordinates begin to be rounded, the two standard neighbourhoods
enumerate a cube and an octahedron without their middle, the octahedron inside the cube, and no word
on the way overflows. -/
theorem moore_vonNeumann_enumerate (radius : UInt32) (h : radius.toNat ≤ 2 ^ 24) :
    (Enumerates (moore radius) (fun p => max (max |p.x| |p.y|) |p.z| ≤ radius.toNat) ∧
      (moore radius).length = (2 * radius.toNat + 1) ^ 3 - 1) ∧
    (Enumerates (vonNeumann radius) (fun p => |p.x| + |p.y| + |p.z| ≤ radius.toNat) ∧
      (vonNeumann radius).length =
        (2 * radius.toNat + 1) * (2 * radius.toNat ^ 2 + 2 * radius.toNat + 3) / 3 - 1) ∧
    (vonNeumann radius).Sublist (moore radius) ∧
    within? radius chebyshev? = some (moore radius) ∧
    within? radius manhattan? = some (vonNeumann radius) := by
  have hword : radius.toNat < 2 ^ 31 := by omega
  have hmoore : moore radius =
      (kept radius.toNat fun p => p.chebyshev ≤ radius.toNat).map .ofPoint := by
    rw [moore, moorePoints_eq_kept hword]
  have hneumann : vonNeumann radius =
      (kept radius.toNat fun p => p.manhattan ≤ radius.toNat).map .ofPoint := by
    rw [vonNeumann, vonNeumannPoints_eq_kept hword]
  rw [hmoore, hneumann]
  refine ⟨⟨(enumerates_kept h).congr fun p => ?_, ?_⟩, ⟨(enumerates_kept h).congr fun p => ?_, ?_⟩,
    ?_, within?_eq_some h fun p hp => ⟨?_, chebyshev?_ofInt hp⟩,
    within?_eq_some h fun p hp => ⟨?_, manhattan?_ofInt hp⟩⟩
  · rw [decide_eq_true_iff, and_self, ← p.natCast_chebyshev, Nat.cast_le]
  · rw [List.length_map, length_kept_chebyshev]
  · rw [decide_eq_true_iff, ← p.natCast_manhattan, Nat.cast_le]
    exact and_iff_right_of_imp p.chebyshev_le_manhattan.trans
  · rw [List.length_map, length_kept_manhattan]
  · refine (List.monotone_filter_right _ fun p hp => ?_).map _
    rw [decide_eq_true_iff] at hp ⊢
    exact hp.imp_right fun hnear => decide_eq_true
      (p.chebyshev_le_manhattan.trans (of_decide_eq_true hnear))
  · exact hp.trans_lt (by decide)
  · obtain ⟨hx, hy, hz⟩ := natAbs_le_of_chebyshev_le hp
    rw [Point.manhattan]
    omega

/-- At the greatest radius the octahedron is still inside the cube, point by point. -/
theorem moore_vonNeumann_enumerate_at_limit :
    (16777216 : UInt32).toNat ≤ 2 ^ 24 ∧ (moore 16777216).length = 33554433 ^ 3 - 1 ∧
      (vonNeumann 16777216).length = 33554433 * 562949986975747 / 3 - 1 ∧
      (vonNeumann 16777216).Sublist (moore 16777216) ∧
      within? 16777216 manhattan? = some (vonNeumann 16777216) :=
  have h := moore_vonNeumann_enumerate 16777216 (by decide)
  ⟨by decide, h.1.2, h.2.1.2, h.2.2.1, h.2.2.2.2⟩

end Neighbourhood

end CellularShader
