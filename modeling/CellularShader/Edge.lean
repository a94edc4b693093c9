/- # Reading beyond the edge

A policy says what a neighbour outside the volume looks like: the volume repeats, its outermost
voxels extend, or a fixed expression stands for everything outside. It becomes the `getVoxel`
routine of a shader.
-/

import CellularShader.Glsl.Printer

namespace CellularShader

open Glsl

/-- What lies outside the volume. -/
inductive Edge where
  /-- The volume again, as on a torus. -/
  | wrap
  /-- The nearest voxel of the volume. -/
  | clamp
  /-- The value of an expression. -/
  | literal (text : String)
deriving DecidableEq

namespace Edge

/-- Outside is dead unless said otherwise. -/
instance : Inhabited Edge := ⟨literal "0"⟩

/-- The policy named by a text; a text that names none is an expression. -/
def ofText (text : String) : Edge :=
  if text = "wrap" then wrap else if text = "clamp" then clamp else literal text

/-- An integer constant outside. -/
def ofInt (n : Int) : Edge := literal (Literal.ofInt n)

/-- The text of a policy. -/
def text : Edge → String
  | wrap => "wrap"
  | clamp => "clamp"
  | literal text => text

/-- The position looked at. -/
def target : Expr := .paren (.arith .add (.name "currentPos") (.name "add"))

def voxelPos : Expr := .name "voxelPos"

def volumeSize : Expr := .name "iVolumeSize"

/-- The state sampled at the position looked at. -/
def sampled : Expr := .call "int" [.call "voxel" [voxelPos]]

/-- The test that the position looked at is outside the volume. -/
def outside : Expr :=
  .any <|
    ["x", "y", "z"].map (fun axis => .compare .lt (.component voxelPos axis) (.numeral "0.")) ++
    ["x", "y", "z"].map (fun axis =>
      .compare .ge (.component voxelPos axis) (.component volumeSize axis))

/-- The statements of the lookup. -/
def body : Edge → List Stmt
  | wrap => [.declare .vec3 "voxelPos" (.call "mod" [target, volumeSize]), .give sampled]
  | clamp =>
    [.declare .vec3 "voxelPos" target,
      .assign "voxelPos" (.call "clamp" [voxelPos, .call "vec3" [.numeral "0."],
        .arith .sub volumeSize (.call "vec3" [.numeral "1."])]),
      .give sampled]
  | literal text =>
    [.declare .vec3 "voxelPos" target, .giveFirst ⟨outside, .verbatim text⟩ [] (some sampled)]

/-- The routine that looks up the state at an offset from a position. -/
def lookup (edge : Edge) : Routine where
  result := .int
  name := "getVoxel"
  params := [⟨true, .vec3, "currentPos"⟩, ⟨true, .vec3, "add"⟩]
  paragraphs := [edge.body]

/-- How the lookup is written. -/
def layout : Edge → Layout
  | wrap => {}
  | clamp | literal _ => { afterIf := false, afterDeclaration := true }

/-- The text of the lookup. -/
def lookupText (edge : Edge) : String := edge.lookup.text edge.layout

end Edge

end CellularShader
