/- # Neighbourhoods

A neighbourhood is a list of offsets from a voxel to the voxels it looks at. The order is kept, and
an offset that occurs twice is looked at twice.

The standard neighbourhoods are the grid points within a distance of the origin, the origin itself
left out. They are listed by `z`, then by `y`, then by `x`, each ascending.
-/

import CellularShader.Binary.Rounding

namespace CellularShader

/-! ## Offsets -/

/-- A displacement, in voxels along each axis. -/
structure Offset where
  x : Single
  y : Single
  z : Single
deriving DecidableEq

/-- A place on the integer grid. -/
structure Point where
  x : Int
  y : Int
  z : Int
deriving DecidableEq

namespace Offset

/-- The offset to a grid point. -/
def ofPoint (p : Point) : Offset := ⟨.ofInt .single p.x, .ofInt .single p.y, .ofInt .single p.z⟩

/-- Numerical equality in every component. -/
def equals (a b : Offset) : Bool := a.x.equals b.x && a.y.equals b.y && a.z.equals b.z

end Offset

/-- Offsets in the order in which they are sampled. -/
abbrev Neighbourhood := List Offset

namespace Neighbourhood

/-- Numerical equality, offset by offset. -/
def equals : Neighbourhood → Neighbourhood → Bool
  | [], [] => true
  | a :: as, b :: bs => a.equals b && equals as bs
  | _, _ => false

end Neighbourhood

/-! ## Standard neighbourhoods -/

namespace Point

def origin : Point := ⟨0, 0, 0⟩

/-- The greatest distance along an axis. -/
def chebyshev (p : Point) : Nat := max (max p.x.natAbs p.y.natAbs) p.z.natAbs

/-- The sum of the distances along the axes. -/
def manhattan (p : Point) : Nat := p.x.natAbs + p.y.natAbs + p.z.natAbs

/-- The coordinates from `-radius` to `radius`. The radius is a signed word, and a negative one
encloses none. -/
def span (radius : UInt32) : List Int :=
  let r := radius.toInt32.toInt
  (List.range (2 * r + 1).toNat).map fun i : Nat => (i : Int) - r

/-- The points of a cube around the origin. -/
def cube (radius : UInt32) : List Point :=
  (span radius).flatMap fun z => (span radius).flatMap fun y => (span radius).map fun x => ⟨x, y, z⟩

end Point

namespace Neighbourhood

/-- The grid points other than the origin within a Chebyshev distance. -/
def moorePoints (radius : UInt32) : List Point :=
  (Point.cube radius).filter fun p => p ≠ .origin ∧ p.chebyshev ≤ radius.toNat

/-- The grid points other than the origin within a Manhattan distance. -/
def vonNeumannPoints (radius : UInt32) : List Point :=
  (Point.cube radius).filter fun p => p ≠ .origin ∧ p.manhattan ≤ radius.toNat

def moore (radius : UInt32) : Neighbourhood := (moorePoints radius).map .ofPoint

def vonNeumann (radius : UInt32) : Neighbourhood := (vonNeumannPoints radius).map .ofPoint

end Neighbourhood

end CellularShader
