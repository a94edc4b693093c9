/- # What a lookup shows

The lookup routine of a policy, called with a position and an offset, returns a state of the volume
or what lies outside of it. The statements of the lookup sample inside the volume only, where the
host's sampling function is defined. An expression for what lies outside is evaluated there alone,
and whatever is sampled outside is sampled by that expression.
-/

import CellularShader.Proofs.Glsl.Calls
import CellularShader.Proofs.Glsl.Grammar
import CellularShader.Volume

namespace CellularShader

open Glsl Glsl.Expr

namespace Edge

/-- The policies whose lookup has a value everywhere: an expression has to be an integer. -/
inductive IsDefinite : Edge → Prop
  | wrap : IsDefinite .wrap
  | clamp : IsDefinite .clamp
  | int (n : Int) : IsDefinite (.ofInt n)

/-- A coordinate reduced by the size of its axis. -/
def wrapped (x : Rat) (size : Int) : Rat := x - size * (x / size).floor

/-- The coordinate nearest to `x` that a voxel of the axis has. -/
def clamped (x : Rat) (size : Int) : Rat :=
  if x < 0 then 0 else if size - 1 < x then size - 1 else x

/-- The value of an integer constant. -/
def fixedValue (text : String) : Int :=
  match Value.ofNumeral? .double text with
  | some (.int n) => n
  | _ => 0

/-- The state that a policy shows at a position. -/
def shown (v : Volume) (q : Vec) : Edge → Int
  | wrap => v.state (.ofVec ⟨wrapped q.x v.size.x, wrapped q.y v.size.y, wrapped q.z v.size.z⟩)
  | clamp => v.state (.ofVec ⟨clamped q.x v.size.x, clamped q.y v.size.y, clamped q.z v.size.z⟩)
  | literal text => if v.contains q then v.state (.ofVec q) else fixedValue text

/-! ## Coordinates -/

theorem wrapped_mem {size : Int} (hsize : 0 < size) (x : Rat) :
    0 ≤ wrapped x size ∧ wrapped x size < size := by
  have hcast : (0 : Rat) < size := by exact_mod_cast hsize
  have hle : ((x / size).floor : Rat) ≤ x / size := Rat.le_floor_iff.1 le_rfl
  -- The quotient lies between its integer part and the next integer.
  have hlt : x / size < (x / size).floor + 1 := by
    by_contra h
    have hfloor : (((x / size).floor + 1 : Int) : Rat) ≤ x / size := by
      push_cast
      exact not_lt.1 h
    have := Rat.le_floor_iff.2 hfloor
    omega
  rw [le_div_iff₀ hcast] at hle
  rw [div_lt_iff₀ hcast] at hlt
  constructor
  · rw [wrapped]
    linarith
  · rw [wrapped]
    linarith

theorem floorMod?_eq_wrapped {size : Int} (hsize : 0 < size) (x : Rat) :
    floorMod? x size = some (wrapped x size) := by
  have hcast : (size : Rat) ≠ 0 := by exact_mod_cast hsize.ne'
  rw [floorMod?, if_neg hcast, wrapped]

theorem clamped_mem {size : Int} (hsize : 0 < size) (x : Rat) :
    0 ≤ clamped x size ∧ clamped x size < size := by
  have hcast : (1 : Rat) ≤ size := by exact_mod_cast hsize
  unfold clamped
  split_ifs <;> constructor <;> linarith

theorem clamp?_eq_clamped {size : Int} (hsize : 0 < size) (x : Rat) :
    clamp? x 0 (size - 1) = some (clamped x size) := by
  have hcast : (1 : Rat) ≤ size := by exact_mod_cast hsize
  rw [clamp?, if_neg (by linarith), clamped]
  split_ifs <;> rfl

end Edge

namespace Volume

/-- A volume that has voxels. -/
def IsInhabited (v : Volume) : Prop := 0 < v.size.x ∧ 0 < v.size.y ∧ 0 < v.size.z

theorem contains_iff {v : Volume} {q : Vec} : v.contains q = true ↔
    (0 ≤ q.x ∧ q.x < v.size.x) ∧ (0 ≤ q.y ∧ q.y < v.size.y) ∧ 0 ≤ q.z ∧ q.z < v.size.z := by
  simp [contains, and_assoc]

theorem isInhabited_of_contains {v : Volume} {q : Vec} (h : v.contains q = true) :
    v.IsInhabited := by
  obtain ⟨⟨hx, hx'⟩, ⟨hy, hy'⟩, hz, hz'⟩ := contains_iff.1 h
  exact ⟨by exact_mod_cast hx.trans_lt hx', by exact_mod_cast hy.trans_lt hy',
    by exact_mod_cast hz.trans_lt hz'⟩

end Volume

namespace Edge

/-! ## Syntax -/

/-- The lookup as it is read: an integer outside is a number and no longer a piece of text. -/
def readLookup : Edge → Routine
  | literal text =>
    { (literal text).lookup with
      paragraphs := [[.declare .vec3 "voxelPos" target,
        .giveFirst ⟨outside, .numeral text⟩ [] (some sampled)]] }
  | edge => edge.lookup

theorem lookupText_eq (edge : Edge) : edge.lookupText = edge.readLookup.text edge.layout := by
  cases edge <;> rfl

theorem body_readLookup_wrap : (readLookup .wrap).body = body .wrap := by
  simp [readLookup, lookup, Routine.body]

theorem body_readLookup_clamp : (readLookup .clamp).body = body .clamp := by
  simp [readLookup, lookup, Routine.body]

theorem body_readLookup_ofInt (n : Int) : (readLookup (.ofInt n)).body =
    [.declare .vec3 "voxelPos" target, .giveFirst ⟨outside, .int n⟩ [] (some sampled)] := by
  simp [readLookup, ofInt, Routine.body, Expr.int]

theorem fits_target {level : Glsl.Level} : Fits level target :=
  .paren (.arith (by decide) (.name (by decide)) (.name (by decide)))

theorem fits_sampled {level : Glsl.Level} : Fits level sampled :=
  fits_call (by decide) (fits_call (by decide) (.name (by decide)))

theorem fits_outside : Fits .choice outside := by
  have haxis : ∀ axis ∈ ["x", "y", "z"], Token.isWord axis.toList = true := by decide
  refine .any (by decide) (by simp) fun e he => ?_
  rcases List.mem_append.1 he with he | he
  · obtain ⟨axis, haxes, rfl⟩ := List.mem_map.1 he
    exact .compare (by decide) (.component (by decide) (haxis axis haxes))
      (.numeral (.plain (by decide)))
  · obtain ⟨axis, haxes, rfl⟩ := List.mem_map.1 he
    exact .compare (by decide) (.component (by decide) (haxis axis haxes))
      (.component (by decide) (haxis axis haxes))

theorem legible_readLookup {edge : Edge} (h : edge.IsDefinite) : edge.readLookup.Legible := by
  have hlast : Fits .choice (.arith .sub volumeSize (.call "vec3" [.numeral "1."])) :=
    .arith (by decide) (.name (by decide))
      (fits_call (by decide) (.numeral (.plain (by decide))))
  cases h with
  | wrap =>
    refine ⟨by decide, by decide, ?_⟩
    rw [body_readLookup_wrap]
    simp only [body, List.forall_mem_cons, List.not_mem_nil, false_imp_iff, implies_true, and_true]
    exact ⟨⟨by decide, fits_call (by decide) ⟨fits_target, .name (by decide)⟩⟩, fits_sampled⟩
  | clamp =>
    refine ⟨by decide, by decide, ?_⟩
    rw [body_readLookup_clamp]
    simp only [body, List.forall_mem_cons, List.not_mem_nil, false_imp_iff, implies_true, and_true]
    refine ⟨⟨by decide, fits_target⟩, ⟨by decide, by decide, ?_⟩, fits_sampled⟩
    refine fits_call (by decide) ⟨.name (by decide), fits_call (by decide) ?_, hlast⟩
    exact .numeral (.plain (by decide))
  | int n =>
    refine ⟨(by decide : Token.isWord "getVoxel".toList = true), ?_, ?_⟩
    · simp [readLookup, ofInt, lookup]
      decide
    rw [body_readLookup_ofInt]
    simp only [List.forall_mem_cons, List.not_mem_nil, false_imp_iff, implies_true, and_true]
    exact ⟨⟨by decide, fits_target⟩, ⟨fits_outside, fits_int n⟩, by simp,
      by simpa using fits_sampled⟩

/-! ## Meaning -/

/-- A size with a voxel along every axis. -/
def HasRoom (size : Point) : Prop := 0 < size.x ∧ 0 < size.y ∧ 0 < size.z

/-- The points of the box between the origin and a size. -/
def Inside (size : Point) (q : Vec) : Prop :=
  (0 ≤ q.x ∧ q.x < size.x) ∧ (0 ≤ q.y ∧ q.y < size.y) ∧ 0 ≤ q.z ∧ q.z < size.z

instance (size : Point) (q : Vec) : Decidable (Inside size q) :=
  inferInstanceAs (Decidable (_ ∧ _))

/-- The host's sampling function has a number at every point of a box. -/
def SamplesInside (env : Environment) (size : Point) (sample : Vec → Rat) : Prop :=
  ∀ q, Inside size q → env.call "voxel" [.vec3 q] = some (.float (sample q))

/-- The host knows the size of the volume. -/
def KnowsSize (env : Environment) (size : Point) : Prop :=
  env.values "iVolumeSize" = some (.vec3 size.toVec)

/-- The point at which the repeated volume shows another point. -/
def repeated (size : Point) (q : Vec) : Vec :=
  ⟨wrapped q.x size.x, wrapped q.y size.y, wrapped q.z size.z⟩

/-- The point of the volume nearest to another one. -/
def nearest (size : Point) (q : Vec) : Vec :=
  ⟨clamped q.x size.x, clamped q.y size.y, clamped q.z size.z⟩

variable {env : Environment} {size : Point} {sample : Vec → Rat} {p o q : Vec} {F : Format}
  {f : String} {vs : List Value}

theorem inside_repeated (hroom : HasRoom size) (q : Vec) : Inside size (repeated size q) :=
  ⟨wrapped_mem hroom.1 _, wrapped_mem hroom.2.1 _, wrapped_mem hroom.2.2 _⟩

theorem inside_nearest (hroom : HasRoom size) (q : Vec) : Inside size (nearest size q) :=
  ⟨clamped_mem hroom.1 _, clamped_mem hroom.2.1 _, clamped_mem hroom.2.2 _⟩

theorem KnowsSize.assign (h : KnowsSize env size) {name : String} (hname : "iVolumeSize" ≠ name)
    (x : Value) : KnowsSize (env.assign name x) size := by
  simpa [KnowsSize, hname] using h

/-- A sample taken inside the volume is a number without its fraction. -/
theorem value_sampled (h : SamplesInside env size sample)
    (hq : env.values "voxelPos" = some (.vec3 q)) (hinside : Inside size q) :
    sampled.value env = some (.int (truncate (sample q))) := by
  have hint (x : Rat) : env.call "int" [.float x] = some (.int (truncate x)) := rfl
  simp [sampled, voxelPos, Expr.value, eval, evalEach, Environment.lookup, hq, h q hinside, hint]

theorem calls_sampled_iff (hq : env.values "voxelPos" = some (.vec3 q)) :
    sampled.Calls env "voxel" vs F ↔ vs = [.vec3 q] := by
  simp [sampled, voxelPos, eval, evalEach, Environment.lookup, hq, eq_comm]

theorem not_calls_target : ¬target.Calls env f vs F := by
  simp [target]

theorem not_calls_outside : ¬outside.Calls env f vs F := by
  simp [outside, voxelPos, volumeSize]

/-- The six comparisons hold for what is not in the volume. -/
theorem decides_outside (h : KnowsSize env size) (hq : env.values "voxelPos" = some (.vec3 q)) :
    Decides env .double outside (!decide (Inside size q)) := by
  have hzero : Value.ofNumeral? .double "0." = some (.float 0) := by decide +kernel
  have hbelow (axis : String) (x : Rat) (hx : (Value.vec3 q).component? axis = some (.float x)) :
      Decides env .double (.compare .lt (.component voxelPos axis) (.numeral "0."))
        (decide (x < 0)) := by
    simp [Decides, voxelPos, eval, Environment.lookup, hq, hx, hzero, Comparison.holds]
  have habove (axis : String) (x bound : Rat)
      (hx : (Value.vec3 q).component? axis = some (.float x))
      (hbound : (Value.vec3 size.toVec).component? axis = some (.float bound)) :
      Decides env .double (.compare .ge (.component voxelPos axis) (.component volumeSize axis))
        (decide (bound ≤ x)) := by
    rw [KnowsSize] at h
    simp [Decides, voxelPos, volumeSize, eval, Environment.lookup, hq, h, hx, hbound,
      Comparison.holds]
  -- The three lower bounds come first, as they are printed.
  have hany := decides_any (.cons (hbelow "x" q.x rfl) (.cons (hbelow "y" q.y rfl)
    (.cons (hbelow "z" q.z rfl) (.cons (habove "x" q.x _ rfl rfl) (.cons (habove "y" q.y _ rfl rfl)
      (.cons (habove "z" q.z _ rfl rfl) .nil))))))
  have houtcome : (!decide (Inside size q)) = [decide (q.x < 0), decide (q.y < 0),
      decide (q.z < 0), decide (size.toVec.x ≤ q.x), decide (size.toVec.y ≤ q.y),
      decide (size.toVec.z ≤ q.z)].any id := by
    rw [Bool.eq_iff_iff, Bool.not_eq_true', ← Bool.not_eq_true, decide_eq_true_iff, Inside]
    simp only [Point.toVec, List.any_cons, List.any_nil, id, Bool.or_false, Bool.or_eq_true,
      decide_eq_true_eq, ← not_lt, not_and_or, not_not]
    grind
  exact houtcome ▸ hany

/-- A position is passed on to the statement behind its declaration. -/
theorem value_target (hp : env.values "currentPos" = some (.vec3 p))
    (ho : env.values "add" = some (.vec3 o)) :
    target.value env = some (.vec3 (p.zipWith (· + ·) o)) := by
  simp [target, Expr.value, eval, Environment.lookup, hp, ho, Arith.result?, Vec.zipWith,
    Arith.onRat]

theorem value_repeated (hsize : KnowsSize env size) (hroom : HasRoom size)
    (hq : target.value env = some (.vec3 q)) :
    (Expr.call "mod" [target, volumeSize]).value env = some (.vec3 (repeated size q)) := by
  have hmod : env.call "mod" [.vec3 q, .vec3 size.toVec] = some (.vec3 (repeated size q)) := by
    simp [Environment.call, builtin?, Point.toVec, floorMod?_eq_wrapped hroom.1,
      floorMod?_eq_wrapped hroom.2.1, floorMod?_eq_wrapped hroom.2.2, repeated]
  rw [Expr.value] at hq ⊢
  rw [KnowsSize] at hsize
  simp [eval, evalEach, literalFormat, volumeSize, Environment.lookup, hsize, hq, hmod]

/-- Reduced coordinates are those of a voxel. -/
theorem run_wrap (h : SamplesInside env size sample) (hsize : KnowsSize env size)
    (hroom : HasRoom size) (hq : target.value env = some (.vec3 q)) :
    Stmt.run env (body .wrap) = some (.int (truncate (sample (repeated size q)))) := by
  rw [body, Stmt.run_declare (value_repeated hsize hroom hq) rfl, Stmt.run_give]
  exact value_sampled h (env.values_assign_self _ _) (inside_repeated hroom q)

theorem eq_of_calls_wrap (hsize : KnowsSize env size) (hroom : HasRoom size)
    (hq : target.value env = some (.vec3 q)) (h : Stmt.Calls env "voxel" vs (body .wrap)) :
    vs = [.vec3 (repeated size q)] := by
  rw [body, Stmt.calls_declare (value_repeated hsize hroom hq) rfl] at h
  rcases h with h | h
  · simp [not_calls_target, volumeSize] at h
  · exact (calls_sampled_iff (env.values_assign_self _ _)).1 h

theorem value_nearest (hsize : KnowsSize env size) (hroom : HasRoom size) (q : Vec) :
    (Expr.call "clamp" [voxelPos, .call "vec3" [.numeral "0."],
      .arith .sub volumeSize (.call "vec3" [.numeral "1."])]).value
        (env.assign "voxelPos" (.vec3 q)) = some (.vec3 (nearest size q)) := by
  have hzero : Value.ofNumeral? .single "0." = some (.float 0) := by decide +kernel
  have hone : Value.ofNumeral? .single "1." = some (.float 1) := by decide +kernel
  rw [KnowsSize] at hsize
  simp [Expr.value, eval, evalEach, literalFormat, voxelPos, volumeSize, Environment.lookup,
    hsize, hzero, hone, Environment.call, builtin?, Arith.result?, Arith.onRat, Vec.zipWith,
    Point.toVec, clamp?_eq_clamped hroom.1, clamp?_eq_clamped hroom.2.1,
    clamp?_eq_clamped hroom.2.2, nearest]

/-- The nearest coordinates are those of a voxel. -/
theorem run_clamp (h : SamplesInside env size sample) (hsize : KnowsSize env size)
    (hroom : HasRoom size) (hq : target.value env = some (.vec3 q)) :
    Stmt.run env (body .clamp) = some (.int (truncate (sample (nearest size q)))) := by
  rw [body, Stmt.run_declare hq rfl]
  -- The position is declared first and then moved into the volume.
  simp only [Stmt.run, Environment.values_assign, if_true, value_nearest hsize hroom, Value.type?,
    Value.as?, Option.bind_eq_bind, Option.bind_some]
  exact value_sampled h (Environment.values_assign_self _ _ _) (inside_nearest hroom q)

theorem eq_of_calls_clamp (hsize : KnowsSize env size) (hroom : HasRoom size)
    (hq : target.value env = some (.vec3 q)) (h : Stmt.Calls env "voxel" vs (body .clamp)) :
    vs = [.vec3 (nearest size q)] := by
  rw [body, Stmt.calls_declare hq rfl,
    Stmt.calls_assign (env.values_assign_self _ _) rfl (value_nearest hsize hroom q) rfl] at h
  rcases h with h | h | h
  · exact absurd h not_calls_target
  · simp [voxelPos, volumeSize] at h
  · exact (calls_sampled_iff (Environment.values_assign_self _ _ _)).1 h

/-- The statements of the lookup with an expression for what lies outside. -/
def literalBody (e : Expr) : List Stmt :=
  [.declare .vec3 "voxelPos" target, .giveFirst ⟨outside, e⟩ [] (some sampled)]

/-- What is in the volume is sampled where it is. -/
theorem run_literal_inside (h : SamplesInside env size sample) (hsize : KnowsSize env size)
    (hq : target.value env = some (.vec3 q)) (hinside : Inside size q) (e : Expr) :
    Stmt.run env (literalBody e) = some (.int (truncate (sample q))) := by
  have hpos := env.values_assign_self "voxelPos" (.vec3 q)
  rw [literalBody, Stmt.run_declare hq rfl,
    Stmt.run_giveFirst_fallback (decides_outside (hsize.assign (by decide) _) hpos),
    decide_eq_true hinside]
  exact value_sampled h hpos hinside

/-- What is not in the volume is replaced by the expression. -/
theorem run_literal_outside (hsize : KnowsSize env size) (hq : target.value env = some (.vec3 q))
    (houtside : ¬Inside size q) (e : Expr) :
    Stmt.run env (literalBody e) = e.value (env.assign "voxelPos" (.vec3 q)) := by
  have hpos := env.values_assign_self "voxelPos" (.vec3 q)
  rw [literalBody, Stmt.run_declare hq rfl,
    Stmt.run_giveFirst_fallback (decides_outside (hsize.assign (by decide) _) hpos),
    decide_eq_false houtside]
  rfl

/-- The calls are those of one branch. -/
theorem calls_literalBody (hsize : KnowsSize env size) (hq : target.value env = some (.vec3 q))
    (e : Expr) : Stmt.Calls env f vs (literalBody e) ↔
      (if Inside size q then sampled else e).Calls (env.assign "voxelPos" (.vec3 q)) f vs
        .double := by
  have hpos := env.values_assign_self "voxelPos" (.vec3 q)
  rw [literalBody, Stmt.calls_declare hq rfl,
    Stmt.calls_giveFirst_fallback (decides_outside (hsize.assign (by decide) _) hpos)]
  by_cases hinside : Inside size q <;> simp [hinside, not_calls_target, not_calls_outside]

/-! ## Volumes -/

/-- What a lookup needs from the host. -/
structure Hosts (env : Environment) (v : Volume) : Prop where
  voxel : ∀ q, v.contains q = true →
    env.call "voxel" [.vec3 q] = some (.float (v.state (.ofVec q)))
  size : env.values "iVolumeSize" = some (.vec3 v.size.toVec)

variable {v : Volume}

theorem Hosts.samplesInside (h : Hosts env v) :
    SamplesInside env v.size fun q => v.state (.ofVec q) :=
  fun q hq => h.voxel q (Volume.contains_iff.2 hq)

theorem Hosts.assign (h : Hosts env v) {name : String} (hname : "iVolumeSize" ≠ name) (x : Value) :
    Hosts (env.assign name x) v where
  voxel := h.voxel
  size := KnowsSize.assign h.size hname x

/-- The statements of a definite policy return what it shows. -/
theorem run_readLookup {edge : Edge} (hedge : edge.IsDefinite) (h : Hosts env v)
    (hv : v.IsInhabited) (hq : target.value env = some (.vec3 q)) :
    Stmt.run env edge.readLookup.body = some (.int (shown v q edge)) := by
  cases hedge with
  | wrap =>
    rw [body_readLookup_wrap, run_wrap h.samplesInside h.size hv hq, truncate_intCast]
    rfl
  | clamp =>
    rw [body_readLookup_clamp, run_clamp h.samplesInside h.size hv hq, truncate_intCast]
    rfl
  | int n =>
    rw [body_readLookup_ofInt, ← literalBody]
    by_cases hinside : v.contains q = true
    · rw [run_literal_inside h.samplesInside h.size hq (Volume.contains_iff.1 hinside),
        truncate_intCast]
      simp [shown, ofInt, hinside]
    · rw [run_literal_outside h.size hq (mt Volume.contains_iff.2 hinside)]
      simp [shown, ofInt, hinside, Expr.value, fixedValue, Literal.ofNumeral?_ofInt]

/-- A lookup returns what its statements return on the position and the offset. -/
theorem meaning_readLookup_of_run {edge : Edge} {n : Int}
    (hrun : Stmt.run ((env.assign "currentPos" (.vec3 p)).assign "add" (.vec3 o))
      edge.readLookup.body = some (.int n)) :
    edge.readLookup.meaning env [.vec3 p, .vec3 o] = some (.int n) := by
  have hpass : env.pass edge.readLookup.params [.vec3 p, .vec3 o] =
      some ((env.assign "currentPos" (.vec3 p)).assign "add" (.vec3 o)) := by
    cases edge <;> rfl
  have hresult : edge.readLookup.result = .int := by cases edge <;> rfl
  simp [Routine.meaning, hpass, hrun, hresult, Value.as?]

/-- The lookup of a definite policy shows a state at every position. -/
theorem meaning_readLookup {edge : Edge} (hedge : edge.IsDefinite) (h : Hosts env v)
    (hv : v.IsInhabited) (p o : Vec) :
    edge.readLookup.meaning env [.vec3 p, .vec3 o] =
      some (.int (shown v (p.zipWith (· + ·) o) edge)) := by
  have hhosts : Hosts ((env.assign "currentPos" (.vec3 p)).assign "add" (.vec3 o)) v :=
    (h.assign (by decide) _).assign (by decide) _
  have htarget : target.value ((env.assign "currentPos" (.vec3 p)).assign "add" (.vec3 o)) =
      some (.vec3 (p.zipWith (· + ·) o)) := value_target (by simp) (by simp)
  apply meaning_readLookup_of_run
  exact run_readLookup hedge hhosts hv htarget

end Edge

end CellularShader
