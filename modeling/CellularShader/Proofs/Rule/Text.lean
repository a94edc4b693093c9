/- # The text of a rule makes its step

The text of a rule over a neighbourhood, loaded where the voxels around a position, the user's share
and the draws have a meaning, defines a transition that returns the next state of the rule. The host
provides the draws, so the source of draws in the text of a stochastic rule is not called.
-/

import CellularShader.Proofs.Glsl.Loading
import CellularShader.Proofs.Rule.Process

namespace CellularShader

open Glsl Glsl.Expr

namespace Rule

/-! ## The source of draws -/

/-- The vector that spreads positions. -/
def drawWeights : Expr := .call "vec2" [.numeral "12.9898", .numeral "78.233"]

/-- The fraction that a number is scattered to. -/
def scattered (e : Expr) : Expr :=
  .call "fract" [.arith .mul (.call "sin" [e]) (.numeral "43758.5453")]

/-- A coordinate pair of the position, moved by the length of another one. -/
def movedPair (axes others : String) : Expr :=
  .call "dot"
    [.arith .add (.component (.name "co") axes)
        (.call "vec2" [.arith .mul (.call "length" [.component (.name "co") others])
          (.numeral "24.0316")]),
      drawWeights]

/-- The routine that the source of draws is the text of. -/
def drawRoutine : Routine where
  result := .float
  name := "rand"
  params := [⟨false, .vec3, "co"⟩, ⟨false, .float, "seed"⟩]
  paragraphs :=
    [[.assign "co"
        (.arith .add (.name "co")
          (.call "vec3"
            [scattered (.call "dot"
              [.call "vec2"
                  [.arith .mul (.arith .mul (.component (.name "iRand") "x") (.numeral "4."))
                      (.numeral "5.9898"),
                    .arith .mul (.name "seed") (.numeral "78.5453")],
                drawWeights])])),
      .give (scattered (.arith .add (.arith .add (movedPair "xy" "yz") (movedPair "yz" "zx"))
        (movedPair "zx" "xy")))]]

theorem fits_drawWeights {level : Glsl.Level} : Fits level drawWeights :=
  fits_call (by decide) ⟨.numeral (.plain (by decide)), .numeral (.plain (by decide))⟩

theorem fits_scattered {e : Expr} (h : Fits .choice e) {level : Glsl.Level} :
    Fits level (scattered e) :=
  fits_call (by decide)
    (.arith (by decide) (fits_call (by decide) h) (.numeral (.plain (by decide))))

theorem fits_movedPair {axes others : String} (haxes : Token.isWord axes.toList = true)
    (hothers : Token.isWord others.toList = true) {level : Glsl.Level} :
    Fits level (movedPair axes others) := by
  have hlength : Fits .product (.call "length" [.component (.name "co") others]) :=
    fits_call (by decide) (.component (by decide) hothers)
  exact fits_call (by decide)
    ⟨.arith (by decide) (.component (by decide) haxes)
        (fits_call (by decide) (.arith (by decide) hlength (.numeral (.plain (by decide))))),
      fits_drawWeights⟩

theorem legible_drawRoutine : drawRoutine.Legible where
  name := by decide
  params := by decide
  body := by
    have hpair : Fits .choice (.call "vec2"
        [.arith .mul (.arith .mul (.component (.name "iRand") "x") (.numeral "4."))
            (.numeral "5.9898"),
          .arith .mul (.name "seed") (.numeral "78.5453")]) := by
      refine fits_call (by decide) ⟨.arith (by decide) (.arith (by decide) ?_ ?_) ?_,
        .arith (by decide) (.name (by decide)) ?_⟩
      · exact .component (by decide) (by decide)
      all_goals exact .numeral (.plain (by decide))
    intro s hs
    simp only [Routine.body, drawRoutine, List.flatten_cons, List.flatten_nil, List.append_nil,
      List.mem_cons, List.not_mem_nil, or_false] at hs
    rcases hs with rfl | rfl
    · refine ⟨by decide, by decide, .arith (by decide) (.name (by decide)) ?_⟩
      refine fits_call (by decide) ?_
      exact fits_scattered (.call (by decide) (by simpa using ⟨hpair, fits_drawWeights⟩))
    · exact fits_scattered (.arith (by decide)
        (.arith (by decide) (fits_movedPair (by decide) (by decide))
          (fits_movedPair (by decide) (by decide)))
        (fits_movedPair (by decide) (by decide)))

/-- The source of draws is the text of a routine, written with fewer blanks than a printed one. -/
theorem closed_randomSource : Closed randomSource.toList drawRoutine.tokens := by
  simp only [randomSource, String.toList_intercalate, List.map_cons, List.map_nil,
    String.toList_append, List.intercalate_cons_cons, List.intercalate_singleton,
    String.reduceToList]
  refine closed_of_scan (c := '}') ?_ ?_ (by decide) ?_ <;> decide +kernel

/-! ## Loading -/

variable {r : Rule} {nb : Neighbourhood} {env : Environment} {p : Vec}

/-- The routines of a rule, the transition apart. -/
def helpers (r : Rule) (nb : Neighbourhood) : List Routine :=
  (if r.isStochastic then [drawRoutine] else []) ++ [r.tally.routine nb]

/-- The texts of the helpers. -/
def helperTexts (r : Rule) (nb : Neighbourhood) : List String :=
  (if r.isStochastic then [randomSource] else []) ++ [r.tally.text nb]

theorem sections_eq (r : Rule) (nb : Neighbourhood) :
    r.sections nb = r.helperTexts nb ++ [r.process.text {}] := by
  simp [sections, helperTexts]

theorem closedLine_helperTexts (hnb : ∀ o ∈ nb, o.IsFinite) :
    List.Forall₂ ClosedLine (r.helperTexts nb) ((r.helpers nb).map Routine.tokens) := by
  have htally : ClosedLine (r.tally.text nb) (r.tally.routine nb).tokens :=
    Routine.closedLine_text (Tally.legible_routine hnb) _
  unfold helperTexts helpers
  cases r.isStochastic with
  | true => exact .cons closed_randomSource.line (.cons htally .nil)
  | false => exact .cons htally .nil

theorem legible_helpers (hnb : ∀ o ∈ nb, o.IsFinite) : ∀ h ∈ r.helpers nb, h.Legible := by
  intro h hh
  simp only [helpers, List.mem_append, List.mem_ite_nil_right, List.mem_singleton] at hh
  -- The source of draws is among them for a stochastic rule only.
  rcases hh with ⟨_, rfl⟩ | rfl
  · exact legible_drawRoutine
  · exact Tally.legible_routine hnb

/-- Where the draws have a meaning, the helpers come down to the tally. -/
theorem foldl_define_helpers (hrand : r.isStochastic = true → env.functions "rand" ≠ none) :
    (r.helpers nb).foldl Environment.define env = env.define (r.tally.routine nb) := by
  unfold helpers
  cases hstochastic : r.isStochastic with
  | true => simp [Environment.define_of_known (r := drawRoutine) (hrand hstochastic)]
  | false => rfl

/-- The text of a rule defines its tally and its transition. -/
theorem load_text (hchances : r.ChancesNotInfinite) (hnb : ∀ o ∈ nb, o.IsFinite)
    (hrand : r.isStochastic = true → env.functions "rand" ≠ none) :
    env.load (r.text nb) = some ((env.define (r.tally.routine nb)).define r.process) := by
  have hprocess := legible_process hchances
  have hlegible : ∀ h ∈ r.helpers nb ++ [r.process], h.Legible := by
    intro h hh
    rcases List.mem_append.1 hh with hh | hh
    · exact legible_helpers hnb h hh
    · exact List.mem_singleton.1 hh ▸ hprocess
  rw [text, sections_eq, Environment.load_joinSections (closedLine_helperTexts hnb)
    (Routine.closed_text hprocess {}) List.flatMap_def.symm hlegible, foldl_define_helpers hrand]

/-! ## The transition -/

/-- What a transition needs to know about the voxels around a position. -/
structure Surrounds (env : Environment) (p : Vec) (nb : Neighbourhood) (state : Offset → Int) :
    Prop where
  finite : ∀ o ∈ nb, o.IsFinite
  voxel : ∀ o ∈ nb, env.call "getVoxel" [.vec3 p, .vec3 o.toVec] = some (.int (state o))

variable {state : Offset → Int} {v : View}

/-- The tally of a rule counts the states around a position. -/
theorem call_tally (h : Surrounds env p nb state) (t : Tally)
    (hfree : env.functions t.name = none) (desired : Int) :
    (env.define (t.routine nb)).call t.name (t.arguments p desired) =
      some (.int (nb.countP fun o => t.accepts desired (state o))) := by
  have hbuiltin : builtin? t.name = none := by cases t <;> rfl
  exact (Environment.call_define_self (r := t.routine nb) hbuiltin hfree _).trans
    (Tally.meaning_routine fun o ho => ⟨h.finite o ho, h.voxel o ho⟩)

/-- A transition is run where its tally is defined, on the state and the position it is given. -/
theorem call_process {result : Int} (hfree : env.functions "process" = none)
    (hrun : Stmt.run ((env.assign "currentValue" (.int v.state)).assign "position" (.vec3 p))
      r.body = some (.int result)) :
    (env.define r.process).call "process" [.int v.state, .vec3 p] = some (.int result) := by
  refine (Environment.call_define_self (r := r.process) rfl hfree _).trans ?_
  have hbody : r.process.body = r.body := by simp [Routine.body, process, processRoutine]
  rw [Routine.meaning, hbody]
  simp [process, processRoutine, Environment.pass, Value.as?, hrun]

/-- A tally takes no name that the transition is found by. -/
theorem ne_name_tally {name : String} (hname : name ∈ ["process", "rand"]) (t : Tally)
    (nb : Neighbourhood) : name ≠ (t.routine nb).name := by
  change name ≠ t.name
  rintro rfl
  cases t <;> exact absurd hname (by decide)

theorem frame_pass (env : Environment) (p : Vec) (v : View) :
    Frame ((env.assign "currentValue" (.int v.state)).assign "position" (.vec3 p)) p v :=
  ⟨by simp, by simp⟩

/-- The transition of a rule that counts live neighbours makes its step. -/
theorem call_process_live (ht : r.tally = .live) (hchances : r.ChancesNotInfinite)
    (h : Surrounds env p nb state) (hview : v.neighbours = nb.map state)
    (htally : env.functions "getNeighbourhood" = none) (hprocess : env.functions "process" = none)
    (hshare : ∃ others, env.values "iArgs" = some (.floats (v.share :: others)))
    (hdraw : r.isStochastic = true → env.call "rand" [.vec3 p, .float 1] = some (.float v.draw)) :
    ((env.define (r.tally.routine nb)).define r.process).call "process" [.int v.state, .vec3 p] =
      some (.int (r.next v)) := by
  -- The count of the tally is the count that the view makes.
  have hlive : nb.countP (fun o => Tally.live.accepts 0 (state o)) = v.live := by
    rw [View.live, hview, List.countP_map]
    rfl
  have hne := ne_name_tally (by simp : "process" ∈ _) r.tally nb
  refine call_process ((Environment.functions_define_of_ne hne).trans hprocess) ?_
  refine run_body_live ht hchances ⟨frame_pass _ p v, ?_, by simpa using hshare⟩
    fun hstochastic => ?_
  · rw [ht, ← hlive]
    exact call_tally h .live htally 0
  · have hne := ne_name_tally (by simp : "rand" ∈ _) r.tally nb
    exact (Environment.call_define_of_ne hne _).trans (hdraw hstochastic)

/-- The transition of a rule that counts neighbours in a state makes its step. -/
theorem call_process_matching (ht : r.tally = .matching) (hmodulus : r.modulus ≠ 0)
    (h : Surrounds env p nb state) (hview : v.neighbours = nb.map state)
    (htally : env.functions "getNeighbourhoodCond" = none)
    (hprocess : env.functions "process" = none) :
    ((env.define (r.tally.routine nb)).define r.process).call "process" [.int v.state, .vec3 p] =
      some (.int (r.next v)) := by
  have hinState (k : Int) :
      nb.countP (fun o => Tally.matching.accepts k (state o)) = v.inState k := by
    rw [View.inState, hview, List.count, List.countP_map]
    rfl
  have hne := ne_name_tally (by simp : "process" ∈ _) r.tally nb
  refine call_process ((Environment.functions_define_of_ne hne).trans hprocess) ?_
  refine run_body_matching ht hmodulus ⟨frame_pass _ p v, fun k => ?_⟩
  rw [ht, ← hinState k]
  exact call_tally h .matching htally k

end Rule

/-! ## Compiler correctness -/

/-- A meaning for everything that the text of a rule leaves to its surroundings. -/
structure Interpretation where
  /-- The state at an offset from a position. -/
  voxel : Vec → Vec → Int
  /-- The user's first argument. -/
  share : Rat
  otherArguments : List Rat
  /-- The draw at a position with a seed. -/
  draw : Vec → Rat → Rat

namespace Interpretation

/-- The environment that the text of a rule is loaded in. -/
def environment (i : Interpretation) : Environment where
  functions
    | "getVoxel" => some fun
      | [.vec3 p, .vec3 o] => some (.int (i.voxel p o))
      | _ => none
    | "rand" => some fun
      | [.vec3 p, .float seed] => some (.float (i.draw p seed))
      | _ => none
    | _ => none
  values
    | "iArgs" => some (.floats (i.share :: i.otherArguments))
    | _ => none

/-- What a voxel in a state sees at a position. -/
def view (i : Interpretation) (nb : Neighbourhood) (p : Vec) (state : Int) : View where
  state := state
  neighbours := nb.map fun o => i.voxel p o.toVec
  share := i.share
  draw := i.draw p 1

theorem surrounds (i : Interpretation) {nb : Neighbourhood} (hnb : ∀ o ∈ nb, o.IsFinite) (p : Vec) :
    Rule.Surrounds i.environment p nb fun o => i.voxel p o.toVec :=
  ⟨hnb, fun _ _ => rfl⟩

end Interpretation

namespace Rule

/-- The text of a rule of the families that count live neighbours defines a transition that returns
the next state, whatever the voxels, the user's share and the draws are. -/
theorem text_steps_by_live_neighbours {r : Rule}
    (hfamily : r.family ∈ [Family.life, .extendedLife, .extendedStochastic, .luky, .vote])
    (hchances : r.ChancesNotInfinite) {nb : Neighbourhood} (hnb : ∀ o ∈ nb, o.IsFinite)
    (i : Interpretation) (p : Vec) (state : Int) :
    ∃ env, i.environment.load (r.text nb) = some env ∧
      env.call "process" [.int state, .vec3 p] = some (.int (r.next (i.view nb p state))) := by
  have ht : r.tally = .live := by cases r <;> simp_all [family, tally]
  refine ⟨_, load_text hchances hnb fun _ => by simp [Interpretation.environment], ?_⟩
  exact call_process_live (v := i.view nb p state) ht hchances (i.surrounds hnb p) rfl rfl rfl
    ⟨i.otherArguments, rfl⟩ fun _ => rfl

/-- Two or three live neighbours give even odds of a birth, five make it certain. -/
def evenOdds : Rule :=
  .extendedStochastic
    { birth := .ofList [(3, .ofBits .double 0x3fe0000000000000), (5, ChanceRun.certain),
        (2, .ofBits .double 0x3fe0000000000000)] }

/-- Everything is alive except to the left. -/
def lopsided : Interpretation where
  voxel _ o := if o.x < 0 then -1 else 4
  share := 3 / 2
  otherArguments := []
  draw _ _ := 1 / 3

/-- An offset that occurs twice is counted twice, and a share above one is cut to one. -/
theorem evenOdds_bears :
    ∃ env, lopsided.environment.load
        (evenOdds.text [.ofPoint ⟨1, 0, 0⟩, .ofPoint ⟨-1, 0, 0⟩, .ofPoint ⟨1, 0, 0⟩]) = some env ∧
      env.call "process" [.int 0, .vec3 ⟨0, 0, 0⟩] = some (.int 3) := by
  have hchances : evenOdds.ChancesNotInfinite := by
    change ∀ e ∈ _, _
    decide +kernel
  have hnb : ∀ o ∈ [.ofPoint ⟨1, 0, 0⟩, .ofPoint ⟨-1, 0, 0⟩, .ofPoint ⟨1, 0, 0⟩],
      Offset.IsFinite o := by decide +kernel
  have h := text_steps_by_live_neighbours (by decide) hchances hnb lopsided ⟨0, 0, 0⟩ 0
  rwa [show evenOdds.next _ = 3 by decide +kernel] at h

/-- The text of a rule of the families that count neighbours in a state defines a transition that
returns the next state, as long as the cycle of states has a length. -/
theorem text_steps_by_neighbours_in_state {r : Rule}
    (hfamily : r.family ∈ [Family.generations, .extendedGenerations, .nluky, .cyclic])
    (hmodulus : r.modulus ≠ 0) {nb : Neighbourhood} (hnb : ∀ o ∈ nb, o.IsFinite)
    (i : Interpretation) (p : Vec) (state : Int) :
    ∃ env, i.environment.load (r.text nb) = some env ∧
      env.call "process" [.int state, .vec3 p] = some (.int (r.next (i.view nb p state))) := by
  have ht : r.tally = .matching := by cases r <;> simp_all [family, tally]
  have hchances : r.ChancesNotInfinite := by cases r <;> simp_all [family, ChancesNotInfinite]
  refine ⟨_, load_text hchances hnb fun _ => by simp [Interpretation.environment], ?_⟩
  exact call_process_matching (v := i.view nb p state) ht hmodulus (i.surrounds hnb p) rfl rfl rfl

/-- A negative cycle: the phase after the third is counted from above. -/
theorem negative_cycle_steps :
    ∃ env, (Interpretation.environment ⟨fun _ _ => 1, 0, [], fun _ _ => 0⟩).load
        ((Rule.nluky { stateCount := -3 }).text [.ofPoint ⟨0, 0, -1⟩]) = some env ∧
      env.call "process" [.int 3, .vec3 ⟨0, 0, 0⟩] = some (.int (-3)) :=
  text_steps_by_neighbours_in_state (r := .nluky { stateCount := -3 }) (by decide) (by decide)
    (by decide +kernel) ⟨fun _ _ => 1, 0, [], fun _ _ => 0⟩ ⟨0, 0, 0⟩ 3

end Rule

end CellularShader
