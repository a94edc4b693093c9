/- # Evaluating syntax

What the pieces of a routine evaluate to, so that a routine can be evaluated without opening the
evaluator: the integers among the numbers, names and functions, conditions, and calls.
-/

import CellularShader.Glsl.Semantics
import CellularShader.Proofs.Literal
import Mathlib.Algebra.Order.Field.Rat

namespace CellularShader

namespace Glsl

/-! ## Integers among the numbers -/

@[simp] theorem truncate_intCast (n : Int) : truncate n = n := by
  simp [truncate, Rat.floor_intCast, Rat.ceil_intCast]

theorem floor_intCast_div (m n : Int) (hn : n ≠ 0) : ((m : Rat) / n).floor = Int.fdiv m n := by
  have hpositive (m n : Int) (hn : 0 < n) : ((m : Rat) / n).floor = Int.fdiv m n := by
    have hcast : (0 : Rat) < n := by exact_mod_cast hn
    refine eq_of_forall_le_iff fun k => ?_
    rw [Rat.le_floor_iff, le_div_iff₀ hcast, Int.fdiv_eq_ediv_of_nonneg _ hn.le,
      Int.le_ediv_iff_mul_le hn]
    exact_mod_cast Iff.rfl
  -- A negative divisor is made positive by changing both signs.
  rcases lt_or_gt_of_ne hn with hneg | hpos
  · have h := hpositive (-m) (-n) (by omega)
    rwa [Int.cast_neg, Int.cast_neg, neg_div_neg_eq, Int.neg_fdiv_neg] at h
  · exact hpositive m n hpos

/-- The remainder of integers is that of division rounded down. -/
theorem floorMod?_intCast {m n : Int} (hn : n ≠ 0) :
    floorMod? (m : Rat) n = some ((Int.fmod m n : Int) : Rat) := by
  have hcast : (n : Rat) ≠ 0 := by exact_mod_cast hn
  rw [floorMod?, if_neg hcast, floor_intCast_div m n hn, Int.fmod_def]
  push_cast
  rfl

@[simp] theorem Value.toFloat?_int (n : Int) : (Value.int n).toFloat? = some (n : Rat) := rfl

@[simp] theorem Value.toFloat?_float (x : Rat) : (Value.float x).toFloat? = some x := rfl

@[simp] theorem Value.toBool?_bool (b : Bool) : (Value.bool b).toBool? = some b := rfl

namespace Comparison

/-- Whether a comparison of two integers holds. -/
def onInt : Comparison → Int → Int → Bool
  | eq, m, n => m = n
  | lt, m, n => m < n
  | le, m, n => m ≤ n
  | gt, m, n => n < m
  | ge, m, n => n ≤ m

@[simp] theorem holds_intCast (operator : Comparison) (m n : Int) :
    operator.holds m n = operator.onInt m n := by
  cases operator <;> simp [holds, onInt]

end Comparison

/-! ## Names and functions -/

namespace Environment

variable (env : Environment)

@[simp] theorem values_assign (name : String) (value : Value) (n : String) :
    (env.assign name value).values n = if n = name then some value else env.values n := rfl

theorem values_assign_self (name : String) (value : Value) :
    (env.assign name value).values name = some value := by
  simp

@[simp] theorem call_assign (name : String) (value : Value) (function : String)
    (arguments : List Value) :
    (env.assign name value).call function arguments = env.call function arguments := rfl

/-- A name other than the two constants is looked up among the values. -/
theorem lookup_eq_values {name : String} (htrue : name ≠ "true") (hfalse : name ≠ "false") :
    env.lookup name = env.values name := by
  simp [lookup, htrue, hfalse]

@[simp] theorem values_define (r : Routine) : (env.define r).values = env.values := rfl

variable {env}

/-- A routine is called under its name unless that is taken. -/
theorem call_define_self {r : Routine} (hbuiltin : builtin? r.name = none)
    (hfree : env.functions r.name = none) (arguments : List Value) :
    (env.define r).call r.name arguments = r.meaning env arguments := by
  simp [call, define, hbuiltin, hfree]

/-- Calls of other names are not affected. -/
theorem call_define_of_ne {r : Routine} {name : String} (hne : name ≠ r.name)
    (arguments : List Value) : (env.define r).call name arguments = env.call name arguments := by
  simp [call, define, hne]

theorem functions_define_of_ne {r : Routine} {name : String} (hne : name ≠ r.name) :
    (env.define r).functions name = env.functions name := by
  simp [define, hne]

/-- A function that is known keeps its meaning. -/
theorem define_of_known {r : Routine} (h : env.functions r.name ≠ none) : env.define r = env := by
  obtain ⟨f, hf⟩ := Option.ne_none_iff_exists'.1 h
  have hfunctions : (env.define r).functions = env.functions := by
    funext name
    -- The name of the routine is found among the functions that were there before.
    by_cases hname : name = r.name
    · simp [define, hname, hf]
    · exact functions_define_of_ne hname
  exact congrArg (fun functions => { env with functions }) hfunctions

end Environment

/-! ## Expressions -/

namespace Expr

variable {env : Environment} {F : Format}

@[simp] theorem eval_int (n : Int) : (int n).eval env F = some (.int n) :=
  Literal.ofNumeral?_ofInt F n

/-- A floating-point constant of the surrounding format has its exact value. -/
theorem eval_float {x : Binary F} (hx : x.isFinite = true) :
    ∃ v, (float x).eval env F = some v ∧ v.toFloat? = some x.toRat :=
  Literal.ofNumeral?_ofBinary hx

/-- The expression is a condition with the given outcome. -/
def Decides (env : Environment) (F : Format) (e : Expr) (outcome : Bool) : Prop :=
  e.eval env F = some (.bool outcome)

/-- A chain of conditions holds when each does. -/
theorem decides_all {operands : List Expr} {outcomes : List Bool}
    (h : List.Forall₂ (Decides env F) operands outcomes) :
    Decides env F (all operands) (outcomes.all id) := by
  have heval : evalAll env F operands = some (outcomes.all id) := by
    induction h with
    | nil => rfl
    | @cons e outcome _ _ he _ ih =>
      rw [Decides] at he
      -- The chain stops at the first condition that fails, and the others are not evaluated.
      cases outcome <;> simp [evalAll, he, ih]
  simp [Decides, eval, heval]

theorem decides_any {operands : List Expr} {outcomes : List Bool}
    (h : List.Forall₂ (Decides env F) operands outcomes) :
    Decides env F (any operands) (outcomes.any id) := by
  have heval : evalAny env F operands = some (outcomes.any id) := by
    induction h with
    | nil => rfl
    | @cons e outcome _ _ he _ ih =>
      rw [Decides] at he
      cases outcome <;> simp [evalAny, he, ih]
  simp [Decides, eval, heval]

theorem Decides.paren {e : Expr} {outcome : Bool} (h : Decides env F e outcome) :
    Decides env F (.paren e) outcome := by
  simpa [Decides, eval] using h

/-- The comparison of two integers. -/
theorem decides_compare {left right : Expr} {m n : Int} (operator : Comparison)
    (hleft : left.eval env F = some (.int m)) (hright : right.eval env F = some (.int n)) :
    Decides env F (compare operator left right) (operator.onInt m n) := by
  simp [Decides, eval, hleft, hright]

/-- Several conditions, with the outcome of their conjunction. -/
def DecideTogether (env : Environment) (F : Format) (es : List Expr) (outcome : Bool) : Prop :=
  ∃ outcomes, List.Forall₂ (Decides env F) es outcomes ∧ outcomes.all id = outcome

theorem Decides.together {e : Expr} {outcome : Bool} (h : Decides env F e outcome) :
    DecideTogether env F [e] outcome :=
  ⟨[outcome], .cons h .nil, by simp⟩

theorem DecideTogether.cons {e : Expr} {es : List Expr} {first others : Bool}
    (he : Decides env F e first) (hes : DecideTogether env F es others) :
    DecideTogether env F (e :: es) (first && others) := by
  obtain ⟨outcomes, hall, rfl⟩ := hes
  exact ⟨first :: outcomes, .cons he hall, rfl⟩

theorem DecideTogether.append {es others : List Expr} {outcome otherOutcome : Bool}
    (hes : DecideTogether env F es outcome) (hothers : DecideTogether env F others otherOutcome) :
    DecideTogether env F (es ++ others) (outcome && otherOutcome) := by
  obtain ⟨outcomes, hall, rfl⟩ := hes
  obtain ⟨otherOutcomes, hallOthers, rfl⟩ := hothers
  exact ⟨_, List.rel_append hall hallOthers, List.all_append⟩

theorem DecideTogether.all {es : List Expr} {outcome : Bool}
    (h : DecideTogether env F es outcome) : Decides env F (all es) outcome := by
  obtain ⟨outcomes, hall, rfl⟩ := h
  exact decides_all hall

end Expr

/-! ## Statements -/

namespace Stmt

variable {env : Environment} {rest : List Stmt}

theorem run_declare {type : Ty} {name : String} {value : Expr} {v w : Value}
    (hvalue : value.value env = some v) (htype : v.as? type = some w) :
    run env (.declare type name value :: rest) = run (env.assign name w) rest := by
  simp [run, hvalue, htype]

theorem run_give (value : Expr) : run env (.give value :: rest) = value.value env := rfl

/-- The last arm of a chain without a fallback. -/
theorem run_giveFirst_single {arm : Arm} {outcome : Bool}
    (h : Expr.Decides env .double arm.guard outcome) :
    run env (.giveFirst arm [] none :: rest) =
      if outcome then arm.result.value env else run env rest := by
  rw [Expr.Decides] at h
  cases outcome <;> simp [run, Arm.firstHolding, Expr.holds?, Expr.value, h]

/-- One arm with a fallback. -/
theorem run_giveFirst_fallback {arm : Arm} {fallback : Expr} {outcome : Bool}
    (h : Expr.Decides env .double arm.guard outcome) :
    run env (.giveFirst arm [] (some fallback) :: rest) =
      if outcome then arm.result.value env else fallback.value env := by
  rw [Expr.Decides] at h
  cases outcome <;> simp [run, Arm.firstHolding, Expr.holds?, Expr.value, h]

/-- An arm whose guard does not hold is passed over. -/
theorem run_giveFirst_cons {arm next : Arm} {others : List Arm} {outcome : Bool}
    (h : Expr.Decides env .double arm.guard outcome) :
    run env (.giveFirst arm (next :: others) none :: rest) =
      if outcome then arm.result.value env else run env (.giveFirst next others none :: rest) := by
  rw [Expr.Decides] at h
  cases outcome <;> simp [run, Arm.firstHolding, Expr.holds?, Expr.value, h]

end Stmt

end Glsl

end CellularShader
