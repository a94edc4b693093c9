/- # Shaders at work

A volume is a box of voxels with a corner at the origin. A shader that is applied to it gives every
voxel its next state, as the text of the shader says: the host provides the voxels, the size of the
volume, the user's arguments and the draws, and calls the entry point once for each voxel.
-/

import CellularShader.Glsl.Semantics
import CellularShader.Shader

namespace CellularShader

open Glsl

namespace Point

/-- A grid point as exact coordinates. -/
def toVec (p : Point) : Vec := ⟨p.x, p.y, p.z⟩

/-- The grid point at or below exact coordinates. -/
def ofVec (v : Vec) : Point := ⟨v.x.floor, v.y.floor, v.z.floor⟩

end Point

/-- The size of a volume and the state of each of its voxels. -/
structure Volume where
  size : Point
  state : Point → Int

/-- What the host supplies besides the volume. -/
structure Supply where
  arguments : List Rat
  /-- The draw at a position with a seed. -/
  draw : Vec → Rat → Rat

namespace Volume

/-- Whether a point lies in the volume. -/
def contains (v : Volume) (p : Vec) : Bool :=
  0 ≤ p.x && p.x < v.size.x && 0 ≤ p.y && p.y < v.size.y && 0 ≤ p.z && p.z < v.size.z

/-- The host's sampling function. It is not defined outside the volume. -/
def voxel (v : Volume) : Function
  | [.vec3 p] => if v.contains p then some (.float (v.state (.ofVec p))) else none
  | _ => none

/-- What the host provides to a shader. -/
def environment (v : Volume) (supply : Supply) : Environment where
  functions
    | "voxel" => some v.voxel
    | "rand" => some fun
      | [.vec3 p, .float seed] => some (.float (supply.draw p seed))
      | _ => none
    | _ => none
  values
    | "iVolumeSize" => some (.vec3 v.size.toVec)
    | "iArgs" => some (.floats supply.arguments)
    | _ => none

end Volume

namespace Shader

/-- The next state of a voxel. -/
def next? (s : Shader) (v : Volume) (supply : Supply) (p : Point) : Option Int := do
  let env ← (v.environment supply).load s.text
  let x ← (← env.call "map" [.vec3 p.toVec]).toFloat?
  return truncate x

/-- The volume after a step; a voxel without a next state is dead. -/
def step (s : Shader) (supply : Supply) (v : Volume) : Volume :=
  { v with state := fun p => (s.next? v supply p).getD 0 }

/-- The volume after a step for each supply, the first one first. -/
def run (s : Shader) (supplies : List Supply) (v : Volume) : Volume :=
  supplies.foldl (fun v supply => s.step supply v) v

end Shader

end CellularShader
