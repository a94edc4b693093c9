/- # The words of a shader's routines

The routines of a shader are written in few words besides numbers: the names they declare and read,
the keywords of their tests and the functions they call. The lookup also has the expression that the
user supplies. Of the helpers, a transition calls the tally of its rule, and the source of draws
only if the rule is stochastic.
-/

import CellularShader.Edge
import CellularShader.Proofs.Glsl.Words
import CellularShader.Rule.Process

namespace CellularShader

open Glsl

namespace Glsl

/-- Whether words are all taken from a vocabulary, except for solid ones such as numbers. -/
def Covers (vocabulary words : List String) : Prop := ∀ w ∈ words, w ∈ vocabulary ∨ IsSolid w

namespace Covers

variable {vocabulary words others : List String} {word : String}

@[simp] theorem nil : Covers vocabulary [] := fun _ h => absurd h List.not_mem_nil

@[simp] theorem cons_iff : Covers vocabulary (word :: words) ↔
    (word ∈ vocabulary ∨ IsSolid word) ∧ Covers vocabulary words :=
  List.forall_mem_cons

@[simp] theorem append_iff : Covers vocabulary (words ++ others) ↔
    Covers vocabulary words ∧ Covers vocabulary others :=
  List.forall_mem_append

@[simp] theorem flatMap_iff {α : Type} {f : α → List String} {xs : List α} :
    Covers vocabulary (xs.flatMap f) ↔ ∀ x ∈ xs, Covers vocabulary (f x) := by
  simp only [Covers, List.mem_flatMap, forall_exists_index, and_imp]
  exact ⟨fun h x hx w hw => h w x hx hw, fun h w x hx hw => h x hx w hw⟩

end Covers

namespace Expr

variable {vocabulary : List String} {counter position : String}

@[simp] theorem covers_int (n : Int) : Covers vocabulary (int n).words := by
  simp [int, isSolid_ofInt]

@[simp] theorem covers_float {F : Format} (x : Binary F) : Covers vocabulary (float x).words := by
  simp [float, isSolid_ofBinary]

@[simp] theorem wordsOf_append (es fs : List Expr) :
    wordsOf (es ++ fs) = wordsOf es ++ wordsOf fs := by
  simp [wordsOf_eq_flatMap]

theorem covers_bounds (hcounter : counter ∈ vocabulary) (r : Run) :
    Covers vocabulary (wordsOf (r.bounds counter)) := by
  rw [Run.bounds]
  split <;> simp [hcounter]

theorem covers_test (hcounter : counter ∈ vocabulary) (r : Run) :
    Covers vocabulary (r.test counter).words := by
  have hbounds := covers_bounds hcounter r
  rw [Run.test]
  split
  · rename_i heq
    simpa [heq] using hbounds
  · simpa using hbounds

theorem covers_oneOf {clauses : List Expr} (h : ∀ e ∈ clauses, Covers vocabulary e.words) :
    Covers vocabulary (oneOf clauses).words := by
  fun_cases oneOf clauses with
  | case1 => simpa [never] using Or.inr (by decide)
  | case2 clause => exact h clause List.mem_cons_self
  | case3 => simpa [wordsOf_eq_flatMap] using h

theorem covers_isCount (hcounter : counter ∈ vocabulary) (counts : List Int32) :
    Covers vocabulary (isCount counts counter).words := by
  refine covers_oneOf fun e he => ?_
  obtain ⟨r, -, rfl⟩ := List.mem_map.1 he
  exact covers_test hcounter r

theorem covers_test? (hcounter : counter ∈ vocabulary) (hposition : position ∈ vocabulary)
    (hdraw : "rand(" ∈ vocabulary) {r : ChanceRun} {e : Expr}
    (he : r.test? counter position = some e) : Covers vocabulary e.words := by
  have hone : IsSolid "1." := by decide
  rw [ChanceRun.test?] at he
  split at he
  · obtain rfl := Option.some.inj he
    exact covers_test hcounter r.run
  · split at he
    · obtain rfl := Option.some.inj he
      simp [ChanceRun.draw, covers_bounds hcounter, hposition, hdraw, hone]
    · cases he

theorem covers_fires (hcounter : counter ∈ vocabulary) (hposition : position ∈ vocabulary)
    (hdraw : "rand(" ∈ vocabulary) (chances : Chances) :
    Covers vocabulary (fires chances counter position).words := by
  refine covers_oneOf fun e he => ?_
  obtain ⟨r, -, he⟩ := List.mem_filterMap.1 he
  exact covers_test? hcounter hposition hdraw he

end Expr

end Glsl

/-! ## Lookups -/

namespace Edge

/-- The words of lookups, the expression of a literal policy apart. -/
def lookupWords : List String :=
  ["const in vec3 currentPos", "const in vec3 add", "vec3 voxelPos", "voxelPos", "currentPos",
    "add", "iVolumeSize", "x", "y", "z", "0.", "1.", "mod(", "clamp(", "vec3(", "int(", "voxel(",
    "if("]

theorem covers_lookup (edge : Edge) :
    Covers (edge.text :: lookupWords) (edge.lookup.words edge.layout) := by
  cases edge <;>
    simp +decide [lookup, layout, body, text, Routine.words, Routine.body, Param.text, Ty.text,
      target, sampled, outside, voxelPos, volumeSize, gap]

end Edge

/-! ## Tallies -/

namespace Tally

/-- The words of a tally, numbers apart. -/
def vocabulary : List String :=
  ["const in vec3 currentPos", "const in int desiredValue", "int sum", "sum", "getVoxel(",
    "currentPos", "vec3(", "desiredValue"]

theorem covers_step (t : Tally) (o : Offset) (layout : Layout) :
    Covers vocabulary ((t.step o).words layout) := by
  cases t <;> simp [step, counts, sample, Offset.vector, vocabulary]

theorem covers_routine (t : Tally) (nb : Neighbourhood) (layout : Layout) :
    Covers vocabulary ((t.routine nb).words layout) := by
  have hparams : Covers vocabulary (t.params.map Param.text) := by
    cases t <;> simp [params, Param.text, Ty.text, vocabulary]
  have hbody : Covers vocabulary ((t.routine nb).body.flatMap (Stmt.words layout)) := by
    have hwords : "int sum" ∈ vocabulary ∧ "sum" ∈ vocabulary := by simp [vocabulary]
    simp [Routine.body, routine, Ty.text, covers_step, hwords]
  exact Covers.append_iff.2 ⟨hparams, hbody⟩

end Tally

/-! ## Transitions -/

/-- The words of transitions, numbers and the calls of helpers apart. -/
def transitionWords : List String :=
  ["const in int currentValue", "const in vec3 position", "int sum", "float sumAdd",
    "int nextValue", "sum", "sumAdd", "nextValue", "currentValue", "position", "iArgs", "0.", "1.",
    "clamp(", "mod(", "int(", "float(", "if (", "\x7d else if ("]

section Bodies

variable {calls : List String}

theorem covers_grown : Covers (calls ++ transitionWords) grown.words := by
  simp [grown, transitionWords]

theorem covers_declareShare : Covers (calls ++ transitionWords) (declareShare.words {}) := by
  simp [declareShare, Ty.text, transitionWords]

theorem covers_advanced (steps cycle : Int) :
    Covers (calls ++ transitionWords) (advanced steps cycle).words := by
  simp [advanced, currentValue, transitionWords]

theorem covers_withinBounds (low high : Int32) :
    Covers (calls ++ transitionWords) (Expr.wordsOf (withinBounds low high)) := by
  simp [withinBounds, compareInt, transitionWords]

theorem covers_counts (counts : List Int32) :
    Covers (calls ++ transitionWords) (Expr.isCount counts "sum").words :=
  Expr.covers_isCount (by simp [transitionWords]) counts

theorem covers_lifeBody {birth survival : List Expr} (hcall : "getNeighbourhood(" ∈ calls)
    (hbirth : Covers (calls ++ transitionWords) (Expr.wordsOf birth))
    (hsurvival : Covers (calls ++ transitionWords) (Expr.wordsOf survival)) :
    Covers (calls ++ transitionWords) ((lifeBody birth survival).flatMap (Stmt.words {})) := by
  simp +decide [lifeBody, covers_grown, covers_declareShare, hbirth, hsurvival, hcall,
    Tally.atPosition, Tally.name, compareInt, currentValue, Ty.text, gap]

theorem covers_generationsBody (hcall : "getNeighbourhoodCond(" ∈ calls) (r : GenerationsRule) :
    Covers (calls ++ transitionWords) (r.body.flatMap (Stmt.words {})) := by
  simp +decide [GenerationsRule.body, declareExcited, covers_counts, covers_advanced, hcall,
    Tally.atPosition, Tally.name, compareInt, currentValue, Ty.text, gap]

theorem covers_voteBody (hcall : "getNeighbourhood(" ∈ calls) (r : VoteRule) :
    Covers (calls ++ transitionWords) (r.body.flatMap (Stmt.words {})) := by
  simp +decide [VoteRule.body, covers_counts, covers_declareShare, covers_grown, hcall,
    Tally.atPosition, Tally.name, compareInt, currentValue, Ty.text, gap]

theorem covers_nlukyBody (hcall : "getNeighbourhoodCond(" ∈ calls) (r : NlukyRule) :
    Covers (calls ++ transitionWords) (r.body.flatMap (Stmt.words {})) := by
  simp +decide [NlukyRule.body, declareExcited, covers_withinBounds, covers_advanced, hcall,
    Tally.atPosition, Tally.name, compareInt, currentValue, Ty.text, gap]

theorem covers_cyclicBody (hcall : "getNeighbourhoodCond(" ∈ calls) (r : CyclicRule) :
    Covers (calls ++ transitionWords) (r.body.flatMap (Stmt.words {})) := by
  have hadvances : Covers (calls ++ transitionWords) r.advances.words := by
    rw [CyclicRule.advances]
    split <;> simp +decide [compareInt, currentValue]
  simp +decide [CyclicRule.body, hadvances, covers_advanced, hcall, Tally.atPosition, Tally.name,
    currentValue, Ty.text, gap]

end Bodies

namespace Rule

/-- The calls of helpers in the transition of a rule. -/
def helperCalls (r : Rule) : List String :=
  (r.tally.name ++ "(") :: if r.isStochastic then ["rand("] else []

theorem covers_body (r : Rule) :
    Covers (r.helperCalls ++ transitionWords) (r.body.flatMap (Stmt.words {})) := by
  have hcall : r.tally.name ++ "(" ∈ r.helperCalls := List.mem_cons_self
  cases r with
  | life r | extendedLife r =>
    exact covers_lifeBody hcall (by simp [covers_counts]) (by simp [covers_counts])
  | extendedStochastic r =>
    have hfires (chances : Chances) :
        Covers (helperCalls (.extendedStochastic r) ++ transitionWords)
          (Expr.fires chances "sum" "position").words := by
      apply Expr.covers_fires
      · simp [transitionWords]
      · simp [transitionWords]
      · simp [helperCalls, isStochastic, family]
    exact covers_lifeBody hcall (by simp [hfires]) (by simp [hfires])
  | generations r | extendedGenerations r => exact covers_generationsBody hcall r
  | vote r => exact covers_voteBody hcall r
  | luky r => exact covers_lifeBody hcall (covers_withinBounds _ _) (covers_withinBounds _ _)
  | nluky r => exact covers_nlukyBody hcall r
  | cyclic r => exact covers_cyclicBody hcall r

theorem covers_process (r : Rule) :
    Covers (r.helperCalls ++ transitionWords) (r.process.words {}) := by
  have hparams : Covers (r.helperCalls ++ transitionWords) (r.process.params.map Param.text) := by
    simp +decide [process, processRoutine, Param.text, Ty.text]
  have hbody : r.process.body = r.body := by simp [process, processRoutine, Routine.body]
  rw [Routine.words, hbody]
  exact Covers.append_iff.2 ⟨hparams, covers_body r⟩

/-- A phrase in the transition that its fixed words lack stands in the call of a helper. -/
theorem occurs_helperCalls_of_infix {r : Rule} {p : List Char} (hp : IsPhrase p)
    (hfixed : ¬Occurs p ("int process(" :: transitionWords))
    (h : p <:+: (r.process.text {}).toList) : Occurs p r.helperCalls := by
  obtain ⟨w, hw, h⟩ := (Routine.infix_text_iff hp).1 h
  rcases List.mem_cons.1 hw with rfl | hw
  · exact absurd (.head h _) hfixed
  · rcases r.covers_process w hw with hmem | hsolid
    · rcases List.mem_append.1 hmem with hmem | hmem
      · exact ⟨w, hmem, h⟩
      · exact absurd (.tail _ ⟨w, hmem, h⟩) hfixed
    · exact absurd h (hp.not_infix_of_isSolid hsolid)

/-- The transition calls its own tally. -/
theorem mem_words_process (r : Rule) : r.tally.name ++ "(" ∈ r.process.words {} := by
  cases r <;>
    simp [process, processRoutine, Routine.words, Routine.body, body, lifeBody,
      GenerationsRule.body, VoteRule.body, NlukyRule.body, CyclicRule.body, declareExcited,
      Tally.atPosition, tally]

/-- Of the tallies, the transition calls that of its rule and no other. -/
theorem infix_process_tally_iff (r : Rule) (t : Tally) :
    (t.name ++ "(").toList <:+: (r.process.text {}).toList ↔ t = r.tally := by
  constructor
  · intro h
    have hp : IsPhrase (t.name ++ "(").toList := by cases t <;> decide +kernel
    have hfixed : ¬Occurs (t.name ++ "(").toList ("int process(" :: transitionWords) := by
      cases t <;> decide +kernel
    have hcalls := occurs_helperCalls_of_infix hp hfixed h
    rw [helperCalls] at hcalls
    revert hcalls
    cases t <;> cases r.tally <;> cases r.isStochastic <;> decide +kernel
  · rintro rfl
    exact Routine.infix_of_mem_words r.mem_words_process

/-- Only a stochastic rule draws. -/
theorem not_infix_process_draw {r : Rule} (hr : r.isStochastic = false) :
    ¬"rand(".toList <:+: (r.process.text {}).toList := by
  intro h
  have hcalls := occurs_helperCalls_of_infix (by decide +kernel) (by decide +kernel) h
  rw [helperCalls, hr] at hcalls
  revert hcalls
  cases r.tally <;> decide +kernel

end Rule

end CellularShader
