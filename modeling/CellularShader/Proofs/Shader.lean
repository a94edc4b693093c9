/- # The step of a shader

The header of a shader and the interface of the host are comments, so the text of a shader defines
the lookup, the helpers of its rule, the transition and the entry point. What the entry point
returns for a voxel is the next state of the rule, on what the lookup shows around the voxel.
-/

import CellularShader.Proofs.Edge
import CellularShader.Proofs.Rule.Text

namespace CellularShader

open Glsl Glsl.Expr

namespace Shader

/-! ## Comments -/

/-- Whether text inside a block comment ends the comment. -/
def closesComment : List Char → Bool
  | '*' :: '/' :: _ => true
  | _ :: rest => closesComment rest
  | [] => false

theorem closesComment_of_not_mem {cs : List Char} (h : '*' ∉ cs) : closesComment cs = false := by
  induction cs with
  | nil => rfl
  | cons c cs ih =>
    rw [List.mem_cons, not_or] at h
    unfold closesComment
    split
    · simp_all
    · simp_all
    · rfl

/-- A comment goes on behind text that does not end it, as long as the two do not end it where they
meet. -/
theorem afterBlock_append {cs rest : List Char} (h : closesComment cs = false)
    (hmeet : cs.getLast? ≠ some '*' ∨ rest.head? ≠ some '/') :
    afterBlock (cs ++ rest) = afterBlock rest := by
  induction cs with
  | nil => rfl
  | cons c cs ih =>
    have htail : closesComment cs = false := by
      unfold closesComment at h
      split at h <;> simp_all
    -- The end of the text is the end of its tail, unless the tail is empty.
    have hmeet' : cs.getLast? ≠ some '*' ∨ rest.head? ≠ some '/' := by
      cases cs with
      | nil => simp
      | cons d cs => simpa using hmeet
    rw [← ih htail hmeet', List.cons_append, afterBlock]
    rintro rest' rfl hslash
    cases cs with
    | nil =>
      rw [List.nil_append] at hslash
      simp [hslash] at hmeet
    | cons d cs =>
      cases hslash
      simp [closesComment] at h

theorem afterLine_append {cs : List Char} (h : '\n' ∉ cs) (rest : List Char) :
    afterLine (cs ++ '\n' :: rest) = '\n' :: withoutComments rest := by
  induction cs with
  | nil => rfl
  | cons c cs ih =>
    rw [List.mem_cons, not_or] at h
    rw [List.cons_append, afterLine, ih h.2]
    exact fun heq => h.1 heq.symm

/-- The header is one comment, whatever it quotes, as long as that does not end it. -/
theorem closedLine_header {family label edge : String}
    (hfamily : closesComment family.toList = false) (hlabel : closesComment label.toList = false)
    (hedge : closesComment edge.toList = false) : ClosedLine (header family label edge) [] := by
  have htext (rest : List Char) : (header family label edge).toList ++ ['\n'] ++ rest =
      '/' :: '*' :: ("*\n * ".toList ++ (target.toList ++ (" generated by ".toList ++
        (generator.toList ++ ("\n * \n * Rule format : ".toList ++ (family.toList ++
          ("\n * Rule : ".toList ++ (label.toList ++ ("\n * Out of bound value : ".toList ++
            (edge.toList ++ ("\n ".toList ++ '*' :: '/' :: '\n' :: rest))))))))))) := by
    simp [header]
  intro rest
  rw [htext, lex, withoutComments]
  -- Piece by piece: a fixed piece ends in a blank and what is quoted is followed by a line break.
  rw [afterBlock_append (by decide +kernel) (.inl (by decide +kernel)),
    afterBlock_append (by decide +kernel) (.inl (by decide +kernel)),
    afterBlock_append (by decide +kernel) (.inl (by decide +kernel)),
    afterBlock_append (by decide +kernel) (.inl (by decide +kernel)),
    afterBlock_append (by decide +kernel) (.inl (by decide +kernel)),
    afterBlock_append hfamily (.inr (by simp)),
    afterBlock_append (by decide +kernel) (.inl (by decide +kernel)),
    afterBlock_append hlabel (.inr (by simp)),
    afterBlock_append (by decide +kernel) (.inl (by decide +kernel)),
    afterBlock_append hedge (.inr (by simp)),
    afterBlock_append (by decide +kernel) (.inl (by decide +kernel)), afterBlock]
  exact (lex_blank (Or.inl rfl) _).trans (lex_blank (Or.inr rfl) _)

/-- Whether a line is empty or a comment. -/
def isCommentLine : List Char → Bool
  | [] => true
  | '/' :: '/' :: rest => '\n' ∉ rest
  | _ => false

theorem closedLine_comments {lines : List String}
    (h : ∀ line ∈ lines, isCommentLine line.toList = true) :
    ClosedLine ("\n".intercalate lines) [] := by
  -- Every line disappears together with the line break behind it.
  have hline : ∀ line ∈ lines, ∀ rest, lex (line.toList ++ '\n' :: rest) = lex rest := by
    intro line hmem rest
    have hcomment := h line hmem
    unfold isCommentLine at hcomment
    split at hcomment
    · rename_i hnil
      rw [hnil]
      exact lex_blank (Or.inr rfl) rest
    · rename_i cs hcons
      rw [hcons, lex, List.cons_append, List.cons_append, withoutComments,
        afterLine_append (by simpa using hcomment)]
      exact (lex_blank (Or.inl rfl) _).trans (lex_blank (Or.inr rfl) _)
    · cases hcomment
  induction lines with
  | nil => exact closed_newline
  | cons line lines ih =>
    intro rest
    have hfirst := hline line List.mem_cons_self
    cases lines with
    | nil => simpa using hfirst rest
    | cons next lines =>
      have hrest := ih (fun l hl => h l (List.mem_cons_of_mem _ hl))
        (fun l hl => hline l (List.mem_cons_of_mem _ hl)) rest
      have hjoin : ("\n".intercalate (line :: next :: lines)).toList ++ ['\n'] ++ rest =
          line.toList ++ '\n' :: (("\n".intercalate (next :: lines)).toList ++ ['\n'] ++ rest) := by
        simp
      rw [hjoin, hfirst, hrest]

theorem closedLine_hostInterface : ClosedLine hostInterface [] :=
  closedLine_comments (by decide +kernel)

/-! ## Loading -/

theorem legible_entryPoint : entryPoint.Legible where
  name := by decide
  params := by decide
  body := by
    simp only [Routine.body, entryPoint, List.flatten_cons, List.flatten_nil, List.append_nil,
      List.forall_mem_cons, List.not_mem_nil, false_imp_iff, implies_true, and_true]
    exact ⟨⟨by decide, fits_call (by decide) (fits_call (by decide) (.name (by decide)))⟩,
      fits_call (by decide) (fits_call (by decide) ⟨.name (by decide), .name (by decide)⟩)⟩

/-- What a shader has to keep to so that its text can be read: offsets and chances are numbers, the
policy is definite, and the label stays inside the comment that quotes it. -/
structure Legible (s : Shader) : Prop where
  offsets : ∀ o ∈ s.neighbourhood, o.IsFinite
  chances : s.rule.ChancesNotInfinite
  edge : s.edge.IsDefinite
  label : closesComment s.label.toList = false

/-- The routines of a shader, the entry point apart. -/
def helpers (s : Shader) : List Routine :=
  s.edge.readLookup :: s.rule.helpers s.neighbourhood ++ [s.rule.process]

theorem closesComment_edge {edge : Edge} (h : edge.IsDefinite) :
    closesComment edge.text.toList = false := by
  cases h with
  | wrap => decide
  | clamp => decide
  | int n =>
    refine closesComment_of_not_mem fun hstar => ?_
    have hsigned : IsSigned (Edge.ofInt n).text.toList := Literal.isSigned_ofInt n
    generalize (Edge.ofInt n).text.toList = cs at hsigned hstar
    cases hsigned with
    | plain hdigits =>
      rcases hdigits.all _ hstar with h | h <;> exact absurd h (by decide)
    | minus hdigits =>
      rcases List.mem_cons.1 hstar with h | h
      · exact absurd h (by decide)
      · rcases hdigits.all _ h with h | h <;> exact absurd h (by decide)

/-- The text of a legible shader defines the lookup, the routines of its rule and the entry. -/
theorem load_text {s : Shader} (h : s.Legible) (env : Environment) :
    env.load s.text = some ((s.helpers.foldl Environment.define env).define entryPoint) := by
  have hprocess := Rule.legible_process h.chances
  have hheader : ClosedLine (header s.rule.family.tag s.label s.edge.text) [] :=
    closedLine_header (by cases s.rule.family <;> decide) h.label (closesComment_edge h.edge)
  have hlookup : ClosedLine s.edge.lookupText s.edge.readLookup.tokens :=
    s.edge.lookupText_eq ▸ Routine.closedLine_text (Edge.legible_readLookup h.edge) _
  have hsections := List.Forall₂.cons hheader (.cons closedLine_hostInterface (.cons hlookup
    (List.rel_append (Rule.closedLine_helperTexts (r := s.rule) h.offsets)
      (.cons (Routine.closedLine_text hprocess {}) .nil))))
  have htext : s.text = joinSections (header s.rule.family.tag s.label s.edge.text ::
      hostInterface :: s.edge.lookupText ::
        (s.rule.helperTexts s.neighbourhood ++ [s.rule.process.text {}]) ++ [entryText]) := by
    simp [text, sections, Rule.sections_eq]
  have hlegible : ∀ r ∈ s.helpers ++ [entryPoint], r.Legible := by
    intro r hr
    simp only [helpers, List.cons_append, List.append_assoc, List.mem_cons, List.mem_append,
      List.not_mem_nil, or_false, false_or] at hr
    rcases hr with rfl | hr | rfl | rfl
    · exact Edge.legible_readLookup h.edge
    · exact Rule.legible_helpers h.offsets r hr
    · exact hprocess
    · exact legible_entryPoint
  rw [htext]
  refine Environment.load_joinSections hsections (Routine.closed_text legible_entryPoint {}) ?_
    hlegible env
  simp [helpers, List.flatMap_def]

/-! ## The entry point -/

theorem ofVec_toVec (p : Point) : Point.ofVec p.toVec = p := by
  simp [Point.ofVec, Point.toVec, Rat.floor_intCast]

theorem hosts_environment (v : Volume) (supply : Supply) : Edge.Hosts (v.environment supply) v where
  voxel q hq := by simp [Environment.call, builtin?, Volume.environment, Volume.voxel, hq]
  size := rfl

/-- The entry point hands the state of a voxel to the transition. -/
theorem meaning_entryPoint {env : Environment} {p : Vec} {state result : Int}
    (hvoxel : env.call "voxel" [.vec3 p] = some (.float state))
    (hprocess : env.call "process" [.int state, .vec3 p] = some (.int result)) :
    entryPoint.meaning env [.vec3 p] = some (.float result) := by
  have hint (x : Rat) : env.call "int" [.float x] = some (.int (truncate x)) := rfl
  have hfloat (n : Int) : env.call "float" [.int n] = some (.float n) := rfl
  simp [Routine.meaning, entryPoint, Routine.body, Environment.pass, Stmt.run, Expr.value, eval,
    evalEach, Environment.lookup, hvoxel, hint, hprocess, hfloat, Value.as?]

/-- What the voxel at a point sees. -/
def view (s : Shader) (v : Volume) (supply : Supply) (p : Point) : View where
  state := v.state p
  neighbours := s.neighbourhood.map fun o => s.edge.shown v (p.toVec.zipWith (· + ·) o.toVec)
  share := supply.arguments.headD 0
  draw := supply.draw p.toVec 1

/-- A shader gives every voxel of a volume the next state of its rule. -/
theorem next?_eq {s : Shader} (h : s.Legible) (ht : s.rule.tally = .matching)
    (hmodulus : s.rule.modulus ≠ 0) {v : Volume} {p : Point} (hp : v.contains p.toVec = true)
    (supply : Supply) : s.next? v supply p = some (s.rule.next (s.view v supply p)) := by
  have hstochastic : s.rule.isStochastic = false := by
    cases hrule : s.rule <;> simp_all [Rule.tally, Rule.isStochastic, Rule.family]
  have hname : s.edge.readLookup.name = "getVoxel" := by cases s.edge <;> rfl
  -- The environment behind the lookup is named here and the one behind the transition below.
  generalize henv : (v.environment supply).define s.edge.readLookup = env
  have hvoxel (o : Vec) : env.call "getVoxel" [.vec3 p.toVec, .vec3 o] =
      some (.int (s.edge.shown v (p.toVec.zipWith (· + ·) o))) := by
    rw [← henv, ← hname, Environment.call_define_self (by rw [hname]; rfl) (by rw [hname]; rfl)]
    exact Edge.meaning_readLookup h.edge (hosts_environment v supply)
      (Volume.isInhabited_of_contains hp) p.toVec o
  -- The host defines nothing under the names that the text defines.
  have hfree (name : String) (hne : name ≠ "getVoxel")
      (hnone : (v.environment supply).functions name = none) : env.functions name = none := by
    rw [← henv, Environment.functions_define_of_ne (hname ▸ hne), hnone]
  have hprocess := Rule.call_process_matching (v := s.view v supply p) ht hmodulus
    ⟨h.offsets, fun o _ => hvoxel o.toVec⟩ rfl (hfree _ (by decide) rfl) (hfree _ (by decide) rfl)
  have htally : (s.rule.tally.routine s.neighbourhood).name = "getNeighbourhoodCond" := by
    simp [ht, Tally.routine, Tally.name]
  generalize henv' : (env.define (s.rule.tally.routine s.neighbourhood)).define s.rule.process =
    env' at hprocess
  -- None of the routines hides the host's sampling function.
  have hsample : env'.call "voxel" [.vec3 p.toVec] = some (.float (v.state p)) := by
    rw [← henv', Environment.call_define_of_ne (by simp [Rule.process, processRoutine]),
      Environment.call_define_of_ne (by rw [htally]; decide), ← henv,
      Environment.call_define_of_ne (by rw [hname]; decide),
      (hosts_environment v supply).voxel _ hp, ofVec_toVec]
  have hmapFree : env'.functions "map" = none := by
    rw [← henv', Environment.functions_define_of_ne (by simp [Rule.process, processRoutine]),
      Environment.functions_define_of_ne (by rw [htally]; decide)]
    exact hfree _ (by decide) rfl
  have hmap : (env'.define entryPoint).call "map" [.vec3 p.toVec] =
      some (.float (s.rule.next (s.view v supply p))) :=
    (Environment.call_define_self (r := entryPoint) rfl hmapFree _).trans
      (meaning_entryPoint hsample hprocess)
  have hload : (v.environment supply).load s.text = some (env'.define entryPoint) := by
    rw [load_text h, helpers, Rule.helpers, hstochastic]
    simp [henv, henv']
  simp [next?, hload, hmap]

end Shader

end CellularShader
