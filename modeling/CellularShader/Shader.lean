/- # Shaders

A shader is a rule with everything that surrounds it: a notation to quote in its header, the
neighbourhood it looks at, and what lies beyond the edge. Its text has five sections: the header,
the host's interface, the lookup of a voxel, the rule, and the entry point.

Events report on the generation: the grouping of each list of counts, the finished shader, and the
rejection of a rule record. They are values, listed in the order of the work.
-/

import CellularShader.Edge
import CellularShader.Rule.Process

namespace CellularShader

open Glsl

/-- Everything that a shader's text is made from. -/
structure Shader where
  rule : Rule
  label : String := ""
  neighbourhood : Neighbourhood := []
  edge : Edge := default

namespace Shader

/-- A rule without notation and neighbours. -/
def ofRule (rule : Rule) : Shader := { rule }

def withLabel (s : Shader) (label : String) : Shader := { s with label }

def withNeighbourhood (s : Shader) (neighbourhood : Neighbourhood) : Shader :=
  { s with neighbourhood }

def withEdge (s : Shader) (edge : Edge) : Shader := { s with edge }

/-- The kind of program that is generated. -/
def target : String := "Voxel Shader for MagicaVoxel 0.98.2"

/-- The program that the header names as the generator. -/
def generator : String := "voxel-automata-shader 0.1.0"

/-- The comment at the top of a shader. -/
def header (family rule edge : String) : String :=
  "\n".intercalate
    ["/**",
      " * " ++ target ++ " generated by " ++ generator,
      " * ",
      " * Rule format : " ++ family,
      " * Rule : " ++ rule,
      " * Out of bound value : " ++ edge,
      " */"]

/-- What the host provides, as comments. -/
def hostInterface : String :=
  "\n".intercalate
    ["// console command",
      "// 'xs -n [iterations] shadername' : e.g. 'xs -n 20 shadername'",
      "",
      "// shader inputs",
      "// uniform vec3    iVolumeSize;    // volume size [1-126]",
      "// uniform float   iColorIndex;    // current color index [1-255]",
      "// uniform vec3    iMirror;        // current mirror mode [0-1]",
      "// uniform vec3    iAxis;          // current axis mode [0-1]",
      "// uniform float   iFrame;         // current frame",
      "// uniform float   iNumFrames;     // total number of frames",
      "// uniform float   iIter;          // current frame",
      "// uniform vec4    iRand;          // random numbers",
      "// uniform float   iArgs[8];       // user args",
      "",
      "// built-in functions",
      "// float voxel(vec3 v);"]

/-- The routine that the host calls once for each voxel. -/
def entryPoint : Routine where
  result := .float
  name := "map"
  params := [⟨false, .vec3, "v"⟩]
  paragraphs :=
    [[.declare .int "currentValue" (.call "int" [.call "voxel" [.name "v"]]),
      .give (.call "float" [.call "process" [.name "currentValue", .name "v"]])]]

/-- The text of the entry point. -/
def entryText : String := entryPoint.text {}

/-- The sections of a shader. -/
def sections (s : Shader) : List String :=
  [header s.rule.family.tag s.label s.edge.text, hostInterface, s.edge.lookupText] ++
    s.rule.sections s.neighbourhood ++ [entryText]

/-- The text of a shader. -/
def text (s : Shader) : String := joinSections s.sections

/-- Equality of shaders, numbers being compared numerically. -/
def equals (a b : Shader) : Bool :=
  a.rule.equals b.rule && a.label = b.label && a.neighbourhood.equals b.neighbourhood &&
    a.edge = b.edge

end Shader

/-! ## Events -/

/-- How much an event matters. -/
inductive Level where
  | trace
  | debug
deriving DecidableEq

/-- A report on one step of the work. -/
inductive Event where
  /-- A list of counts was grouped into runs. -/
  | grouped (counts runs : Nat)
  /-- A shader was generated. -/
  | generated (family edge : String) (neighbours bytes : Nat)
  /-- A rule record was rejected. -/
  | rejected (family error : String)
deriving DecidableEq

namespace Event

def level : Event → Level
  | grouped .. => .trace
  | generated .. | rejected .. => .debug

/-- The named texts of an event, by name. -/
def fields : Event → List (String × String)
  | grouped counts runs =>
    [("message", "grouped neighbour counts"), ("runs", runs.repr), ("values", counts.repr)]
  | generated family edge neighbours bytes =>
    [("bytes", bytes.repr), ("message", "generated voxel shader"), ("neighbours", neighbours.repr),
      ("out_of_bound", edge), ("rule_format", family)]
  | rejected family error =>
    [("error", error), ("message", "rejected rule descriptor"), ("rule_format", family)]

/-- The report on grouping a list of counts. -/
def ofCounts (counts : List Int32) : Event := grouped counts.length (Run.cover counts).length

end Event

namespace Rule

/-- The reports on compiling a rule, one for each list of counts. -/
def events : Rule → List Event
  | life r | extendedLife r => [.ofCounts r.birth, .ofCounts r.survival]
  | generations r | extendedGenerations r => [.ofCounts r.birth, .ofCounts r.survival]
  | vote r => [.ofCounts r.vote]
  | extendedStochastic _ | luky _ | nluky _ | cyclic _ => []

end Rule

namespace Shader

/-- The reports on generating a shader. -/
def events (s : Shader) : List Event :=
  s.rule.events ++
    [.generated s.rule.family.tag s.edge.text s.neighbourhood.length s.text.utf8ByteSize]

end Shader

end CellularShader
