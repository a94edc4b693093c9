/- # Lookups follow their policy

The text of a policy defines a lookup wherever the host knows the size of the volume. A position of
the volume is looked up as it is. What lies outside is found at the one point of the volume that
repeats it, at the one that is nearest to it along every axis, or it is the value of an expression,
which is read from the text of the policy. The lookup itself samples points of the volume only. For
a point outside it makes no calls but those of the expression, so whatever is sampled elsewhere is
sampled by the expression.
-/

import CellularShader.Proofs.Edge
import CellularShader.Proofs.Glsl.Loading
import CellularShader.Proofs.Glsl.Naming
import Mathlib.Data.Int.ModEq
import Mathlib.Data.Rat.Floor

namespace CellularShader

open Glsl Glsl.Expr

/-! ## Points -/

namespace Point

/-- The point at a displacement from another one. -/
def shifted (p o : Point) : Point := ⟨p.x + o.x, p.y + o.y, p.z + o.z⟩

/-- The points that are a whole number of sizes apart along every axis. -/
def IsRepetition (size q r : Point) : Prop :=
  r.x ≡ q.x [ZMOD size.x] ∧ r.y ≡ q.y [ZMOD size.y] ∧ r.z ≡ q.z [ZMOD size.z]

/-- Along every axis, no point of the volume is nearer to `q` than `r`. -/
def IsNearest (size q r : Point) : Prop :=
  ∀ s : Point, Edge.Inside size s.toVec →
    |r.x - q.x| ≤ |s.x - q.x| ∧ |r.y - q.y| ≤ |s.y - q.y| ∧ |r.z - q.z| ≤ |s.z - q.z|

theorem toVec_shifted (p o : Point) :
    (p.shifted o).toVec = p.toVec.zipWith (· + ·) o.toVec := by
  simp [shifted, toVec, Vec.zipWith]

end Point

namespace Edge

variable {size q r : Point}

theorem inside_toVec : Inside size q.toVec ↔
    (0 ≤ q.x ∧ q.x < size.x) ∧ (0 ≤ q.y ∧ q.y < size.y) ∧ 0 ≤ q.z ∧ q.z < size.z := by
  simp only [Inside, Point.toVec]
  norm_cast

/-! ### Repetition -/

theorem wrapped_intCast {n : Int} (hn : 0 < n) (x : Int) : wrapped x n = (x % n : Int) := by
  obtain ⟨k, rfl⟩ := Int.eq_ofNat_of_zero_le hn.le
  have hfloor : ((x : Rat) / (k : Nat)).floor = x / (k : Nat) := Rat.floor_intCast_div_natCast x k
  rw [wrapped, Int.cast_natCast, hfloor, Int.emod_def]
  push_cast
  rfl

theorem mem_and_modEq_iff {n x y : Int} (hn : 0 < n) :
    (0 ≤ y ∧ y < n) ∧ y ≡ x [ZMOD n] ↔ y = x % n := by
  constructor
  · rintro ⟨⟨hlow, hhigh⟩, hmod⟩
    rw [← hmod.eq, Int.emod_eq_of_lt hlow hhigh]
  · rintro rfl
    exact ⟨⟨Int.emod_nonneg x hn.ne', Int.emod_lt_of_pos x hn⟩, Int.mod_modEq x n⟩

/-- The repetition of a point in the volume. -/
def repetition (size q : Point) : Point := ⟨q.x % size.x, q.y % size.y, q.z % size.z⟩

theorem repeated_toVec (hroom : HasRoom size) (q : Point) :
    repeated size q.toVec = (repetition size q).toVec := by
  simp only [repeated, repetition, Point.toVec, wrapped_intCast hroom.1, wrapped_intCast hroom.2.1,
    wrapped_intCast hroom.2.2]

/-- A point has one repetition in the volume. -/
theorem inside_and_isRepetition_iff (hroom : HasRoom size) :
    Inside size r.toVec ∧ Point.IsRepetition size q r ↔ r = repetition size q := by
  have hx := mem_and_modEq_iff (x := q.x) (y := r.x) hroom.1
  have hy := mem_and_modEq_iff (x := q.y) (y := r.y) hroom.2.1
  have hz := mem_and_modEq_iff (x := q.z) (y := r.z) hroom.2.2
  obtain ⟨x, y, z⟩ := r
  rw [inside_toVec, Point.IsRepetition, repetition, Point.mk.injEq, ← hx, ← hy, ← hz]
  tauto

/-! ### Distance -/

theorem clamped_intCast {n : Int} (hn : 0 < n) (x : Int) :
    clamped x n = (max 0 (min x (n - 1)) : Int) := by
  unfold clamped
  split_ifs with hlow hhigh
  · have hx : x < 0 := by exact_mod_cast hlow
    rw [max_eq_left (by omega)]
    rfl
  · have hx : n - 1 < x := by exact_mod_cast hhigh
    rw [min_eq_right hx.le, max_eq_right (by omega)]
    push_cast
    rfl
  · have hx : 0 ≤ x := by exact_mod_cast not_lt.1 hlow
    have hx' : x ≤ n - 1 := by exact_mod_cast not_lt.1 hhigh
    rw [min_eq_left hx', max_eq_right hx]

theorem mem_and_nearest_iff {n x y : Int} (hn : 0 < n) :
    ((0 ≤ y ∧ y < n) ∧ ∀ z, 0 ≤ z ∧ z < n → |y - x| ≤ |z - x|) ↔ y = max 0 (min x (n - 1)) := by
  constructor
  · rintro ⟨hmem, hnearest⟩
    have hle := hnearest (max 0 (min x (n - 1))) (by omega)
    simp only [abs_eq_max_neg] at hle
    omega
  · rintro rfl
    refine ⟨by omega, fun z hz => ?_⟩
    simp only [abs_eq_max_neg]
    omega

/-- The point of the volume where a point is moved to. -/
def nearestPoint (size q : Point) : Point :=
  ⟨max 0 (min q.x (size.x - 1)), max 0 (min q.y (size.y - 1)), max 0 (min q.z (size.z - 1))⟩

theorem nearest_toVec (hroom : HasRoom size) (q : Point) :
    nearest size q.toVec = (nearestPoint size q).toVec := by
  simp only [nearest, nearestPoint, Point.toVec, clamped_intCast hroom.1, clamped_intCast hroom.2.1,
    clamped_intCast hroom.2.2]

/-- A point of the volume is nearest along every axis when it is so along each axis alone. -/
theorem isNearest_iff (hr : Inside size r.toVec) : Point.IsNearest size q r ↔
    (∀ s, 0 ≤ s ∧ s < size.x → |r.x - q.x| ≤ |s - q.x|) ∧
      (∀ s, 0 ≤ s ∧ s < size.y → |r.y - q.y| ≤ |s - q.y|) ∧
      ∀ s, 0 ≤ s ∧ s < size.z → |r.z - q.z| ≤ |s - q.z| := by
  obtain ⟨hx, hy, hz⟩ := inside_toVec.1 hr
  constructor
  · intro h
    refine ⟨fun s hs => ?_, fun s hs => ?_, fun s hs => ?_⟩
    · exact (h ⟨s, r.y, r.z⟩ (inside_toVec.2 ⟨hs, hy, hz⟩)).1
    · exact (h ⟨r.x, s, r.z⟩ (inside_toVec.2 ⟨hx, hs, hz⟩)).2.1
    · exact (h ⟨r.x, r.y, s⟩ (inside_toVec.2 ⟨hx, hy, hs⟩)).2.2
  · rintro ⟨hx, hy, hz⟩ s hs
    obtain ⟨hsx, hsy, hsz⟩ := inside_toVec.1 hs
    exact ⟨hx s.x hsx, hy s.y hsy, hz s.z hsz⟩

/-- The volume has one point nearest to another one. -/
theorem inside_and_isNearest_iff (hroom : HasRoom size) :
    Inside size r.toVec ∧ Point.IsNearest size q r ↔ r = nearestPoint size q := by
  have hx := mem_and_nearest_iff (x := q.x) (y := r.x) hroom.1
  have hy := mem_and_nearest_iff (x := q.y) (y := r.y) hroom.2.1
  have hz := mem_and_nearest_iff (x := q.z) (y := r.z) hroom.2.2
  rw [and_congr_right fun hr => isNearest_iff hr]
  obtain ⟨x, y, z⟩ := r
  rw [inside_toVec, nearestPoint, Point.mk.injEq, ← hx, ← hy, ← hz]
  tauto

/-! ## Text -/

/-- The policies whose lookup is a program: what lies outside has the outline of an expression, and
the text of it does not leave a comment open. -/
def IsReadable : Edge → Prop
  | literal text => Token.outlineExpression (tokens text) = true ∧ EndsInCode text.toList
  | _ => True

/-- The policies whose text does not name the host's sampling function. -/
def IsSilent : Edge → Prop
  | literal text => .word "voxel".toList ∉ tokens text
  | _ => True

/-- The expression that stands for everything outside. -/
def outer? (text : String) : Option Expr := Reader.wholeExpression (tokens text)

/-- A lookup with other statements. -/
def lookupWith (edge : Edge) (statements : List Stmt) : Routine :=
  { edge.lookup with paragraphs := [statements] }

variable {env : Environment} {text : String} {e : Expr}

theorem ofText?_lookupText_of_isDefinite {edge : Edge} (h : edge.IsDefinite) :
    Routine.ofText? edge.lookupText = some [edge.lookupWith edge.readLookup.body] := by
  have hclosed : Closed edge.lookupText.toList ([edge.readLookup].flatMap Routine.tokens) := by
    rw [lookupText_eq, List.flatMap_singleton]
    exact Routine.closed_text (legible_readLookup h) _
  have hread := Routine.ofText?_of_closed hclosed (by simpa using legible_readLookup h)
  have hjoined : edge.readLookup.joined = edge.lookupWith edge.readLookup.body := by
    cases edge <;> rfl
  rw [hread, List.map_singleton, hjoined]

theorem cutAtSemicolon_verbatim (h : EndsInCode text.toList) :
    (Expr.verbatim text).CutAtSemicolon := by
  intro rest
  exact lex_append_semicolon h rest

theorem legible_declare_target : (Stmt.declare .vec3 "voxelPos" target).Legible :=
  ⟨by decide, fits_target⟩

/-- The choice between what lies outside and the sample. -/
def choice (e : Expr) : Stmt := .giveFirst ⟨outside, e⟩ [] (some sampled)

theorem isWord_name_lookup (edge : Edge) : Token.isWord edge.lookup.name.toList = true := by
  have hname : Token.isWord "getVoxel".toList = true := by decide
  exact hname

theorem isWord_params_lookup (edge : Edge) :
    ∀ p ∈ edge.lookup.params, Token.isWord p.name.toList = true := by
  have hparams : ∀ p ∈ (lookup .wrap).params, Token.isWord p.name.toList = true := by decide
  exact hparams

theorem cutLines_choice (h : EndsInCode text.toList) (layout : Layout) :
    CutLines ((choice (.verbatim text)).lines layout) (choice (.verbatim text)).tokens :=
  Stmt.cutLines_giveFirst (by simpa using fits_outside) (by simpa using cutAtSemicolon_verbatim h)
    (by simpa using fits_sampled) layout

/-- The lookup with an expression is cut into the tokens around it and its own. -/
theorem closed_lookupText_literal (h : EndsInCode text.toList) :
    Closed (literal text).lookupText.toList (literal text).lookup.tokens := by
  have hbody := (Stmt.cutLines_lines legible_declare_target (literal text).layout).append
    (cutLines_choice h (literal text).layout)
  rw [lookupText]
  refine Routine.closed_text_of_lines (isWord_name_lookup _) (isWord_params_lookup _) ?_
  simpa only [Routine.bodyLines, Routine.body, lookup, body, choice, List.map_cons, List.map_nil,
    List.intercalate_singleton, List.flatten_cons, List.flatten_nil, List.flatMap_cons,
    List.flatMap_nil, List.append_nil] using hbody

section

variable (houtline : Token.outlineExpression (tokens text) = true) (houter : outer? text = some e)

include houtline houter

/-- The text outside is read as an expression where it stands in the lookup. -/
theorem statement_choice (rest : List Token) :
    Reader.statement ((choice (.verbatim text)).tokens ++ .symbol ['}'] :: rest) =
      some (choice e, .symbol ['}'] :: rest) := by
  have harm := arm_of_block fits_outside (block_of_terminated
    (Reader.terminated_of_outline houtline houter)
    (Stmt.fallbackTokens (some sampled) ++ .symbol ['}'] :: rest))
  have hchain : Reader.statement (.word "if".toList :: _) =
      some (choice e, .symbol ['}'] :: rest) :=
    Stmt.statement_of_arm harm (by simp) (by simpa using fits_sampled) (by simp)
  simpa [choice, Stmt.tokens, Arm.tokens, blockTokens, Expr.tokens] using hchain

theorem routine_literal : Reader.routine (literal text).lookup.tokens =
    some (lookupWith (literal text) (literalBody e), []) := by
  have htokens : (literal text).lookup.body.flatMap Stmt.tokens ++ [.symbol ['}']] =
      (Stmt.declare .vec3 "voxelPos" target).tokens ++
        ((choice (.verbatim text)).tokens ++ [Token.symbol ['}']]) := by
    simp [Routine.body, lookup, body, choice]
  -- Both statements start with a word, so there are steps enough for them and for the brace.
  have hlength : ∃ n, ((literal text).lookup.body.flatMap Stmt.tokens ++
      [Token.symbol ['}']]).length = n + 2 := by
    rw [htokens]
    simp [Stmt.tokens]
  have hbody : Reader.bounded (Reader.closedBy "\x7d" Reader.statement)
      ((literal text).lookup.body.flatMap Stmt.tokens ++ [.symbol ['}']]) =
        some (literalBody e, []) := by
    obtain ⟨n, hn⟩ := hlength
    rw [Reader.bounded, hn, htokens]
    refine Reader.closedBy_cons ?_ (legible_declare_target.reads ?_) ?_
    · simp [Stmt.tokens]
    · simp [choice, Stmt.tokens]
    · exact Reader.closedBy_cons (by simp [choice, Stmt.tokens])
        (statement_choice houtline houter []) (Reader.closedBy_close _ _ _)
  have hroutine := (literal text).lookup.reads_of_body hbody
  rw [Routine.tokens]
  simpa [lookupWith] using hroutine

theorem ofText?_lookupText_literal (hcode : EndsInCode text.toList) :
    Routine.ofText? (literal text).lookupText =
      some [lookupWith (literal text) (literalBody e)] :=
  Routine.ofText?_of_reads (closed_lookupText_literal hcode) (Routine.tokens_ne_nil _)
    (routine_literal houtline houter)

end

/-! ## Results -/

/-- The position and the offset that a lookup is called with. -/
def passed (env : Environment) (p o : Vec) : Environment :=
  (env.assign "currentPos" (.vec3 p)).assign "add" (.vec3 o)

/-- Where the expression for the outside is evaluated. -/
def placed (env : Environment) (p o : Vec) : Environment :=
  (passed env p o).assign "voxelPos" (.vec3 (p.zipWith (· + ·) o))

/-- The result of a call of a lookup. -/
def looked (env : Environment) (p o : Vec) : Option Value :=
  env.call "getVoxel" [.vec3 p, .vec3 o]

theorem looked_define {r : Routine} (hname : r.name = "getVoxel")
    (hfree : env.functions "getVoxel" = none) (p o : Vec) :
    looked (env.define r) p o = r.meaning env [.vec3 p, .vec3 o] := by
  rw [← hname] at hfree
  rw [looked, ← hname]
  exact Environment.call_define_self (hname ▸ rfl) hfree _

section

variable {edge : Edge} {statements : List Stmt}

theorem looked_lookupWith (hfree : env.functions "getVoxel" = none) (p o : Vec) :
    looked (env.define (edge.lookupWith statements)) p o =
      (Stmt.run (passed env p o) statements).bind (·.as? .int) := by
  have hbody : (edge.lookupWith statements).body = statements := by
    simp [lookupWith, Routine.body]
  rw [looked_define rfl hfree, Routine.meaning, hbody]
  rfl

theorem calls_lookupWith {p o : Vec} {f : String} {vs : List Value} :
    (edge.lookupWith statements).Calls env [.vec3 p, .vec3 o] f vs ↔
      Stmt.Calls (passed env p o) f vs statements := by
  have hpass : env.pass edge.lookup.params [.vec3 p, .vec3 o] = some (passed env p o) := rfl
  simp [Routine.Calls, hpass, lookupWith, Routine.body]

end

theorem SamplesInside.passed {sample : Vec → Rat} (h : SamplesInside env size sample) (p o : Vec) :
    SamplesInside (passed env p o) size sample := h

theorem KnowsSize.passed (h : KnowsSize env size) (p o : Vec) :
    KnowsSize (passed env p o) size :=
  (h.assign (by decide) _).assign (by decide) _

theorem target_passed (env : Environment) (p o : Vec) :
    target.value (passed env p o) = some (.vec3 (p.zipWith (· + ·) o)) :=
  value_target (by simp [passed]) (by simp [passed])

/-- What a policy asks of a lookup. -/
structure Follows (edge : Edge) (size : Point) (env : Environment) (r : Routine) : Prop where
  /-- The volume is sampled inside. Only an expression for the outside can sample elsewhere. -/
  safe : ∀ (p o : Vec) (vs : List Value), r.Calls env [.vec3 p, .vec3 o] "voxel" vs →
    (∃ q, vs = [.vec3 q] ∧ Inside size q) ∨
      ¬Inside size (p.zipWith (· + ·) o) ∧ ∃ text e, edge = literal text ∧ outer? text = some e ∧
        e.Calls (placed env p o) "voxel" vs .double
  /-- The lookup shows a point of the volume, unless an expression stands for the outside. -/
  sampled : ∀ sample, SamplesInside env size sample → ∀ p o : Vec,
    (∃ q, Inside size q ∧ looked (env.define r) p o = some (.int (truncate (sample q)))) ∨
      (∃ text, edge = literal text) ∧ ¬Inside size (p.zipWith (· + ·) o)
  /-- A point of the volume is looked up as it is. -/
  inside : ∀ sample, SamplesInside env size sample → ∀ p o : Point,
    Inside size (p.shifted o).toVec →
      looked (env.define r) p.toVec o.toVec = some (.int (truncate (sample (p.shifted o).toVec)))
  /-- The volume repeats. -/
  wrap : edge = wrap → ∀ sample, SamplesInside env size sample → ∀ p o : Point, ∃ q : Point,
    (∀ s, Inside size s.toVec ∧ Point.IsRepetition size (p.shifted o) s ↔ s = q) ∧
      looked (env.define r) p.toVec o.toVec = some (.int (truncate (sample q.toVec)))
  /-- Its outermost voxels extend. -/
  clamp : edge = clamp → ∀ sample, SamplesInside env size sample → ∀ p o : Point, ∃ q : Point,
    (∀ s, Inside size s.toVec ∧ Point.IsNearest size (p.shifted o) s ↔ s = q) ∧
      looked (env.define r) p.toVec o.toVec = some (.int (truncate (sample q.toVec)))
  /-- The expression stands for everything outside, and no calls are made but its own. -/
  literal : ∀ text e, edge = literal text → outer? text = some e → ∀ p o : Vec,
    ¬Inside size (p.zipWith (· + ·) o) →
      looked (env.define r) p o = (e.value (placed env p o)).bind (·.as? .int) ∧
      ∀ f vs, r.Calls env [.vec3 p, .vec3 o] f vs ↔ e.Calls (placed env p o) f vs .double
  /-- If the expression does not sample, it does not matter what the host samples, if anything. -/
  unsampled : ∀ text e, edge = .literal text → outer? text = some e → ∀ p o : Vec,
    ¬Inside size (p.zipWith (· + ·) o) → (∀ vs, ¬e.Calls (placed env p o) "voxel" vs .double) →
      ∀ functions, (∀ f, f ≠ "voxel" → functions f = env.functions f) →
        looked ((env.withFunctions functions).define r) p o = looked (env.define r) p o

/-- A policy that does not name the sampling function has the volume sampled inside only. -/
theorem Follows.inside_of_calls {edge : Edge} {r : Routine} (h : Follows edge size env r)
    (hsilent : edge.IsSilent) {p o : Vec} {vs : List Value}
    (hcalls : r.Calls env [.vec3 p, .vec3 o] "voxel" vs) : ∃ q, vs = [.vec3 q] ∧ Inside size q := by
  rcases h.safe p o vs hcalls with hinside | ⟨-, text, e, rfl, houter, hcalls⟩
  · exact hinside
  · exact absurd (Reader.namedIn_of_wholeExpression houter _ _ _ _ hcalls) hsilent

/-- The statements of a policy show one point of the volume for every point, and sample no other. -/
structure Redirects (edge : Edge) (size : Point) (env : Environment) (redirect : Vec → Vec) :
    Prop where
  inside : ∀ q, Inside size (redirect q)
  run : ∀ sample, SamplesInside env size sample → ∀ p o : Vec,
    Stmt.run (passed env p o) edge.body =
      some (.int (truncate (sample (redirect (p.zipWith (· + ·) o)))))
  calls : ∀ (p o : Vec) (vs : List Value), Stmt.Calls (passed env p o) "voxel" vs edge.body →
    vs = [.vec3 (redirect (p.zipWith (· + ·) o))]

/-- A policy that redirects the points outside, and leaves those of the volume where they are. -/
theorem Redirects.follows {edge : Edge} {redirect : Vec → Vec}
    (h : Redirects edge size env redirect) (hfree : env.functions "getVoxel" = none)
    (hedge : ∀ text, edge ≠ .literal text)
    (hinside : ∀ q : Point, Inside size q.toVec → redirect q.toVec = q.toVec)
    (hwrap : edge = .wrap → ∀ q : Point, ∃ r : Point, redirect q.toVec = r.toVec ∧
      ∀ s, Inside size s.toVec ∧ Point.IsRepetition size q s ↔ s = r)
    (hclamp : edge = .clamp → ∀ q : Point, ∃ r : Point, redirect q.toVec = r.toVec ∧
      ∀ s, Inside size s.toVec ∧ Point.IsNearest size q s ↔ s = r) :
    Follows edge size env (edge.lookupWith edge.body) := by
  have hvalue (sample : Vec → Rat) (hsample : SamplesInside env size sample) (p o : Vec) :
      looked (env.define (edge.lookupWith edge.body)) p o =
        some (.int (truncate (sample (redirect (p.zipWith (· + ·) o))))) := by
    rw [looked_lookupWith hfree, h.run sample hsample]
    rfl
  constructor
  case safe =>
    intro p o vs hcalls
    exact .inl ⟨_, h.calls p o vs (calls_lookupWith.1 hcalls), h.inside _⟩
  case sampled =>
    intro sample hsample p o
    exact .inl ⟨_, h.inside _, hvalue sample hsample p o⟩
  case inside =>
    intro sample hsample p o hpoint
    rw [hvalue sample hsample, ← Point.toVec_shifted, hinside _ hpoint]
  case wrap =>
    intro heq sample hsample p o
    obtain ⟨r, hr, hunique⟩ := hwrap heq (p.shifted o)
    refine ⟨r, hunique, ?_⟩
    rw [hvalue sample hsample, ← Point.toVec_shifted, hr]
  case clamp =>
    intro heq sample hsample p o
    obtain ⟨r, hr, hunique⟩ := hclamp heq (p.shifted o)
    refine ⟨r, hunique, ?_⟩
    rw [hvalue sample hsample, ← Point.toVec_shifted, hr]
  case literal | unsampled =>
    intro text e heq
    exact absurd heq (hedge text)

section

variable (hroom : HasRoom size) (hsize : KnowsSize env size)
  (hfree : env.functions "getVoxel" = none)

include hroom hsize

theorem redirects_wrap : Redirects .wrap size env (repeated size) where
  inside := inside_repeated hroom
  run _ h p o := run_wrap (h.passed p o) (hsize.passed p o) hroom (target_passed _ _ _)
  calls p o _ hcalls := eq_of_calls_wrap (hsize.passed p o) hroom (target_passed _ _ _) hcalls

theorem redirects_clamp : Redirects .clamp size env (nearest size) where
  inside := inside_nearest hroom
  run _ h p o := run_clamp (h.passed p o) (hsize.passed p o) hroom (target_passed _ _ _)
  calls p o _ hcalls := eq_of_calls_clamp (hsize.passed p o) hroom (target_passed _ _ _) hcalls

include hfree

theorem follows_wrap : Follows .wrap size env (lookupWith .wrap (body .wrap)) := by
  refine (redirects_wrap hroom hsize).follows hfree (by simp) ?_ ?_ (by simp)
  · intro q hinside
    -- A point of the volume is its own repetition.
    have hself := (inside_and_isRepetition_iff hroom).1 ⟨hinside, rfl, rfl, rfl⟩
    rw [repeated_toVec hroom, ← hself]
  · intro _ q
    exact ⟨_, repeated_toVec hroom q, fun s => inside_and_isRepetition_iff hroom⟩

theorem follows_clamp : Follows .clamp size env (lookupWith .clamp (body .clamp)) := by
  refine (redirects_clamp hroom hsize).follows hfree (by simp) ?_ (by simp) ?_
  · intro q hinside
    -- No point is nearer to a point of the volume than the point itself.
    have hnearest : Point.IsNearest size q q := by
      intro s _
      simp
    have hself := (inside_and_isNearest_iff hroom).1 ⟨hinside, hnearest⟩
    rw [nearest_toVec hroom, ← hself]
  · intro _ q
    exact ⟨_, nearest_toVec hroom q, fun s => inside_and_isNearest_iff hroom⟩

omit hroom hfree in
/-- The calls of a lookup with an expression. -/
theorem calls_literal {p o : Vec} {f : String} {vs : List Value} :
    (lookupWith (.literal text) (literalBody e)).Calls env [.vec3 p, .vec3 o] f vs ↔
      (if Inside size (p.zipWith (· + ·) o) then sampled else e).Calls (placed env p o) f vs
        .double :=
  calls_lookupWith.trans (calls_literalBody (hsize.passed p o) (target_passed _ _ _) e)

omit hroom in
theorem follows_literal (houter : outer? text = some e) :
    Follows (.literal text) size env (lookupWith (.literal text) (literalBody e)) := by
  have hvalue (sample : Vec → Rat) (h : SamplesInside env size sample) (p o : Vec)
      (hinside : Inside size (p.zipWith (· + ·) o)) :
      looked (env.define (lookupWith (.literal text) (literalBody e))) p o =
        some (.int (truncate (sample (p.zipWith (· + ·) o)))) := by
    rw [looked_lookupWith hfree,
      run_literal_inside (h.passed p o) (hsize.passed p o) (target_passed _ _ _) hinside]
    rfl
  have hcalls (p o : Vec) (houtside : ¬Inside size (p.zipWith (· + ·) o)) (f : String)
      (vs : List Value) :
      (lookupWith (.literal text) (literalBody e)).Calls env [.vec3 p, .vec3 o] f vs ↔
        e.Calls (placed env p o) f vs .double := by
    rw [calls_literal hsize, if_neg houtside]
  constructor
  case safe =>
    intro p o vs h
    -- One branch samples at the position itself, the other is the expression.
    by_cases hinside : Inside size (p.zipWith (· + ·) o)
    · rw [calls_literal hsize, if_pos hinside] at h
      have hargument := (calls_sampled_iff (Environment.values_assign_self _ _ _)).1 h
      exact .inl ⟨_, hargument, hinside⟩
    · exact .inr ⟨hinside, text, e, rfl, houter, (hcalls p o hinside _ _).1 h⟩
  case sampled =>
    intro sample h p o
    by_cases hinside : Inside size (p.zipWith (· + ·) o)
    · exact .inl ⟨_, hinside, hvalue sample h p o hinside⟩
    · exact .inr ⟨⟨text, rfl⟩, hinside⟩
  case inside =>
    intro sample h p o hinside
    rw [Point.toVec_shifted] at hinside ⊢
    exact hvalue sample h p.toVec o.toVec hinside
  case wrap | clamp =>
    intro hedge
    cases hedge
  case literal =>
    intro text' e' htext houter' p o houtside
    obtain rfl := Edge.literal.inj htext
    obtain rfl := Option.some.inj (houter.symm.trans houter')
    refine ⟨?_, hcalls p o houtside⟩
    rw [looked_lookupWith hfree,
      run_literal_outside (hsize.passed p o) (target_passed _ _ _) houtside]
    rfl
  case unsampled =>
    intro text' e' htext houter' p o houtside hsilent functions hfunctions
    obtain rfl := Edge.literal.inj htext
    obtain rfl := Option.some.inj (houter.symm.trans houter')
    have hfree' : (env.withFunctions functions).functions "getVoxel" = none :=
      (hfunctions "getVoxel" (by decide)).trans hfree
    rw [looked_define rfl hfree', looked_define rfl hfree]
    -- Every call that is made is a call of another function.
    refine Routine.meaning_withFunctions fun f vs h => Environment.answers_of_eq (hfunctions f ?_)
    rintro rfl
    exact hsilent vs ((hcalls p o houtside _ _).1 h)

end

/-- Where the host knows the size of a volume with voxels, the text of a policy defines a lookup
that follows the policy, and that samples inside the volume only unless the policy names the
sampling function itself. -/
theorem lookupText_follows {edge : Edge} (hedge : edge.IsReadable) (hroom : HasRoom size)
    (hsize : KnowsSize env size) (hfree : env.functions "getVoxel" = none) :
    ∃ r, Routine.ofText? edge.lookupText = some [r] ∧ Follows edge size env r ∧
      (edge.IsSilent → ∀ (p o : Vec) (vs : List Value),
        r.Calls env [.vec3 p, .vec3 o] "voxel" vs → ∃ q, vs = [.vec3 q] ∧ Inside size q) := by
  suffices h : ∃ r, Routine.ofText? edge.lookupText = some [r] ∧ Follows edge size env r by
    obtain ⟨r, hread, hfollows⟩ := h
    exact ⟨r, hread, hfollows, fun hsilent p o vs => hfollows.inside_of_calls hsilent⟩
  cases edge with
  | wrap =>
    refine ⟨_, ofText?_lookupText_of_isDefinite .wrap, ?_⟩
    rw [body_readLookup_wrap]
    exact follows_wrap hroom hsize hfree
  | clamp =>
    refine ⟨_, ofText?_lookupText_of_isDefinite .clamp, ?_⟩
    rw [body_readLookup_clamp]
    exact follows_clamp hroom hsize hfree
  | literal text =>
    obtain ⟨houtline, hcode⟩ := hedge
    obtain ⟨e, houter⟩ := Reader.exists_wholeExpression houtline
    exact ⟨_, ofText?_lookupText_literal houtline houter hcode,
      follows_literal hsize hfree houter⟩

/-- A volume of six voxels, with half of an argument of the user outside, which the host finds to be
zero. -/
theorem lookupText_follows_argument :
    let env := { Volume.environment ⟨⟨1, 2, 3⟩, fun _ => 1⟩ ⟨[1 / 2], fun _ _ => 0⟩ with
      foreign := fun _ _ _ => some (.int 0) }
    let edge := Edge.literal "int(iArgs[0]) / 2"
    edge.IsReadable ∧ HasRoom ⟨1, 2, 3⟩ ∧ KnowsSize env ⟨1, 2, 3⟩ ∧ edge.IsSilent ∧
      ∃ r, Routine.ofText? edge.lookupText = some [r] ∧ Follows edge ⟨1, 2, 3⟩ env r ∧
        (edge.IsSilent → ∀ (p o : Vec) (vs : List Value),
          r.Calls env [.vec3 p, .vec3 o] "voxel" vs →
            ∃ q, vs = [.vec3 q] ∧ Inside ⟨1, 2, 3⟩ q) := by
  intro env edge
  have hreadable : edge.IsReadable := ⟨by decide +kernel, by decide +kernel⟩
  have hroom : HasRoom ⟨1, 2, 3⟩ := ⟨by decide, by decide, by decide⟩
  have hsilent : .word "voxel".toList ∉ tokens "int(iArgs[0]) / 2" := by decide +kernel
  exact ⟨hreadable, hroom, rfl, hsilent, lookupText_follows hreadable hroom rfl rfl⟩

/-- An expression for the outside that samples at the position looked at samples outside. -/
theorem lookupText_samples_outside :
    let env := Volume.environment ⟨⟨1, 1, 1⟩, fun _ => 1⟩ ⟨[], fun _ _ => 0⟩
    let edge := Edge.literal "int(voxel(voxelPos))"
    edge.IsReadable ∧ HasRoom ⟨1, 1, 1⟩ ∧ KnowsSize env ⟨1, 1, 1⟩ ∧
      ∃ r, Routine.ofText? edge.lookupText = some [r] ∧
        r.Calls env [.vec3 ⟨0, 0, 0⟩, .vec3 ⟨1, 0, 0⟩] "voxel" [.vec3 ⟨1, 0, 0⟩] ∧
        ¬Inside ⟨1, 1, 1⟩ ⟨1, 0, 0⟩ := by
  intro env edge
  have hreadable : edge.IsReadable := ⟨by decide +kernel, by decide +kernel⟩
  have hfits : sampled.Fits .choice := fits_sampled
  have houter : outer? sampled.text = some sampled := by
    rw [outer?, hfits.tokens_text, hfits.wholeExpression]
  have houtside : ¬Inside ⟨1, 1, 1⟩ ⟨1, 0, 0⟩ := by decide
  refine ⟨hreadable, ⟨by decide, by decide, by decide⟩, rfl, _,
    ofText?_lookupText_literal hreadable.1 houter hreadable.2, ?_, houtside⟩
  have hsize : KnowsSize env ⟨1, 1, 1⟩ := rfl
  rw [calls_literal hsize, ite_self]
  exact (calls_sampled_iff (Environment.values_assign_self _ _ _)).2 (by simp [Vec.zipWith])

end Edge

end CellularShader
