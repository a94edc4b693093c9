/- # What a tally counts

The tally routine over a neighbourhood returns the number of offsets at which the sampled state
passes its test, an offset that occurs twice being counted twice.
-/

import CellularShader.Neighbourhood.Tally
import CellularShader.Proofs.Glsl.Evaluation
import CellularShader.Proofs.Glsl.Grammar

namespace CellularShader

open Glsl Glsl.Expr

namespace Offset

/-- An offset whose components are numbers. -/
def IsFinite (o : Offset) : Prop :=
  o.x.isFinite = true ∧ o.y.isFinite = true ∧ o.z.isFinite = true

instance : DecidablePred IsFinite := fun _ => inferInstanceAs (Decidable (_ ∧ _))

/-- The exact displacement. -/
def toVec (o : Offset) : Vec := ⟨o.x.toRat, o.y.toRat, o.z.toRat⟩

variable {env : Environment} {F : Format} {o : Offset}

/-- A vector of literals is the offset that it was written from. -/
theorem eval_vector (h : o.IsFinite) : o.vector.eval env F = some (.vec3 o.toVec) := by
  have hcomponent (c : Single) (hc : c.isFinite = true) : ∃ v, (float c).eval env .single = some v ∧
      v.toFloat? = some c.toRat := eval_float hc
  obtain ⟨x, hx, hxvalue⟩ := hcomponent o.x h.1
  obtain ⟨y, hy, hyvalue⟩ := hcomponent o.y h.2.1
  obtain ⟨z, hz, hzvalue⟩ := hcomponent o.z h.2.2
  simp [vector, eval, literalFormat, evalEach, hx, hy, hz, Environment.call, builtin?, hxvalue,
    hyvalue, hzvalue, toVec]

theorem fits_vector {level : Glsl.Level} (h : o.IsFinite) : Fits level o.vector := by
  refine .call (by decide) fun e he => ?_
  simp only [List.mem_cons, List.not_mem_nil, or_false] at he
  rcases he with rfl | rfl | rfl
  · exact fits_float h.1
  · exact fits_float h.2.1
  · exact fits_float h.2.2

end Offset

namespace Tally

/-- Whether a sampled state is counted. -/
def accepts (desired : Int) : Tally → Int → Bool
  | live, state => 0 < state
  | matching, state => state = desired

/-- The arguments of a tally around a position. -/
def arguments (p : Vec) (desired : Int) : Tally → List Value
  | live => [.vec3 p]
  | matching => [.vec3 p, .int desired]

variable {t : Tally} {env : Environment} {p : Vec} {desired : Int} {nb : Neighbourhood}
  {state : Offset → Int}

/-! ## Syntax -/

theorem fits_sample {level : Glsl.Level} {o : Offset} (h : o.IsFinite) : Fits level (sample o) := by
  refine .call (by decide) fun e he => ?_
  simp only [List.mem_cons, List.not_mem_nil, or_false] at he
  rcases he with rfl | rfl
  · exact .name (by decide)
  · exact Offset.fits_vector h

theorem legible_step {o : Offset} (h : o.IsFinite) : (t.step o).Legible := by
  refine ⟨by decide, by decide, .choice ?_ (fits_int 1) (fits_int 0)⟩
  cases t with
  | live => exact .compare (by decide) (fits_sample h) (fits_int 0)
  | matching => exact .compare (by decide) (fits_sample h) (.name (by decide))

theorem legible_routine (h : ∀ o ∈ nb, o.IsFinite) : (t.routine nb).Legible where
  name := (by cases t <;> decide : Token.isWord t.name.toList = true)
  params := (by cases t <;> decide : ∀ p ∈ t.params, Token.isWord p.name.toList = true)
  body := by
    intro s hs
    simp only [Routine.body, routine, List.flatten_cons, List.flatten_nil, List.append_nil,
      List.mem_append, List.mem_singleton, List.mem_map] at hs
    rcases hs with rfl | ⟨o, ho, rfl⟩ | rfl
    · exact ⟨by decide, fits_int 0⟩
    · exact legible_step (h o ho)
    · exact .name (by decide)

/-! ## Meaning -/

/-- What the statements of a tally are run in: the position and, for a tally that needs one, the
state to be counted. -/
structure Frame (env : Environment) (t : Tally) (p : Vec) (desired : Int) : Prop where
  position : env.lookup "currentPos" = some (.vec3 p)
  desired : t = .matching → env.lookup "desiredValue" = some (.int desired)

/-- The count so far is all that a step changes. -/
theorem Frame.assign_sum (h : Frame env t p desired) (v : Value) :
    Frame (env.assign "sum" v) t p desired where
  position := by simpa [Environment.lookup] using h.position
  desired ht := by simpa [Environment.lookup] using h.desired ht

theorem decides_counts (h : Frame env t p desired) {o : Offset} (ho : o.IsFinite) {n : Int}
    (hsample : env.call "getVoxel" [.vec3 p, .vec3 o.toVec] = some (.int n)) :
    Decides env .double (t.counts (sample o)) (t.accepts desired n) := by
  have hvoxel : (sample o).eval env .double = some (.int n) := by
    simp [sample, eval, evalEach, h.position, Offset.eval_vector ho, literalFormat, hsample]
  cases t with
  | live => exact decides_compare .gt hvoxel (eval_int 0)
  | matching => exact decides_compare .eq hvoxel (h.desired rfl)

/-- A step adds one to the count when the state at its offset passes. -/
theorem run_step (h : Frame env t p desired) {k : Int} (hsum : env.values "sum" = some (.int k))
    {o : Offset} (ho : o.IsFinite) {n : Int}
    (hsample : env.call "getVoxel" [.vec3 p, .vec3 o.toVec] = some (.int n)) (rest : List Stmt) :
    Stmt.run env (t.step o :: rest) =
      Stmt.run (env.assign "sum" (.int (k + if t.accepts desired n then 1 else 0))) rest := by
  have hcounts := decides_counts h ho hsample
  rw [Decides] at hcounts
  -- The choice adds one or zero.
  cases haccepts : t.accepts desired n <;>
    simp [step, Stmt.run, hsum, Expr.value, eval, hcounts, haccepts, Arith.result?, Arith.onInt,
      Value.type?, Value.as?]

/-- The steps over a neighbourhood add the number of states that pass. -/
theorem run_steps (h : Frame env t p desired) {k : Int} (hsum : env.values "sum" = some (.int k))
    (hnb : ∀ o ∈ nb, o.IsFinite ∧
      env.call "getVoxel" [.vec3 p, .vec3 o.toVec] = some (.int (state o))) :
    Stmt.run env (nb.map t.step ++ [.give (.name "sum")]) =
      some (.int (k + nb.countP fun o => t.accepts desired (state o))) := by
  -- The count so far is the invariant: it changes with every step, and with it the environment.
  induction nb generalizing env k with
  | nil => simp [Stmt.run, Expr.value, eval, Environment.lookup, hsum]
  | cons o nb ih =>
    obtain ⟨ho, hsample⟩ := hnb o List.mem_cons_self
    rw [List.map_cons, List.cons_append, run_step h hsum ho hsample]
    rw [ih (h.assign_sum _) (env.values_assign_self _ _)
        fun o ho => hnb o (List.mem_cons_of_mem _ ho),
      List.countP_cons]
    congr 2
    split <;> push_cast <;> omega

/-- A tally returns the number of states that pass. -/
theorem meaning_routine (hnb : ∀ o ∈ nb, o.IsFinite ∧
      env.call "getVoxel" [.vec3 p, .vec3 o.toVec] = some (.int (state o))) :
    (t.routine nb).meaning env (t.arguments p desired) =
      some (.int (nb.countP fun o => t.accepts desired (state o))) := by
  have hbody : (t.routine nb).body =
      .declare .int "sum" (.int 0) :: (nb.map t.step ++ [.give (.name "sum")]) := by
    simp [Routine.body, routine]
  -- The two tallies differ in what is passed to them, not in what they do with it.
  have hrun (env' : Environment) (hframe : Frame env' t p desired)
      (hcall : ∀ arguments, env'.call "getVoxel" arguments = env.call "getVoxel" arguments) :
      Stmt.run env' (t.routine nb).body =
        some (.int (nb.countP fun o => t.accepts desired (state o))) := by
    have hsteps := run_steps (hframe.assign_sum (.int 0)) (env'.values_assign_self _ _) fun o ho =>
      ⟨(hnb o ho).1, (hcall _).trans (hnb o ho).2⟩
    simpa [hbody, Stmt.run, Expr.value, Value.as?] using hsteps
  cases t with
  | live =>
    have hframe : Frame (env.assign "currentPos" (.vec3 p)) live p desired :=
      ⟨by simp [Environment.lookup], by simp⟩
    have h := hrun _ hframe fun _ => rfl
    simp only [Routine.meaning, routine, params, Environment.pass, arguments, Value.as?] at h ⊢
    simp [h]
  | matching =>
    have hframe : Frame ((env.assign "currentPos" (.vec3 p)).assign "desiredValue" (.int desired))
        matching p desired :=
      ⟨by simp [Environment.lookup], by simp [Environment.lookup]⟩
    have h := hrun _ hframe fun _ => rfl
    simp only [Routine.meaning, routine, params, Environment.pass, arguments, Value.as?] at h ⊢
    simp [h]

end Tally

end CellularShader
