/- # The calls of an evaluation

Which functions an evaluation calls, and on which arguments. An expression beyond the syntax may
call every function that it names, on any arguments. Evaluation depends on the functions of its
environment through these calls only: other functions that answer them alike give the same value.
-/

import CellularShader.Proofs.Glsl.Evaluation

namespace CellularShader

namespace Glsl

namespace Environment

/-- The environment with other functions. -/
def withFunctions (env : Environment) (functions : String → Option Function) : Environment :=
  { env with functions }

/-- Whether other functions answer a call in the same way. -/
def Answers (env : Environment) (functions : String → Option Function) (f : String)
    (vs : List Value) : Prop :=
  (env.withFunctions functions).call f vs = env.call f vs

theorem answers_of_eq {env : Environment} {functions : String → Option Function} {f : String}
    {vs : List Value} (h : functions f = env.functions f) : env.Answers functions f vs := by
  simp [Answers, call, withFunctions, h]

end Environment

open Environment

theorem Value.eq_bool_of_toBool? {v : Value} {b : Bool} (h : v.toBool? = some b) : v = .bool b := by
  cases v with
  | bool => exact congrArg Value.bool (Option.some.inj h)
  | int | float | vec3 | floats => cases h

/-! ## Expressions -/

namespace Expr

mutual

/-- Whether the evaluation of an expression calls `f` on `vs`. -/
def Calls (env : Environment) (f : String) (vs : List Value) (F : Format) : Expr → Prop
  | name _ | numeral _ | verbatim _ => False
  | foreign tokens => .word f.toList ∈ tokens
  | component vector _ => vector.Calls env f vs F
  | element array _ => array.Calls env f vs F
  | call function arguments =>
    CallsEach env f vs (literalFormat F function) arguments ∨
      function = f ∧ evalEach env (literalFormat F function) arguments = some vs
  | paren inner => inner.Calls env f vs F
  | arith _ left right => left.Calls env f vs F ∨ right.Calls env f vs F
  | compare _ left right => left.Calls env f vs F ∨ right.Calls env f vs F
  | all operands => CallsWhile env f vs true F operands
  | any operands => CallsWhile env f vs false F operands
  | choice condition yes no =>
    condition.Calls env f vs F ∨
      condition.eval env F = some (.bool true) ∧ yes.Calls env f vs F ∨
      condition.eval env F = some (.bool false) ∧ no.Calls env f vs F

/-- The same for several expressions. -/
def CallsEach (env : Environment) (f : String) (vs : List Value) (F : Format) : List Expr → Prop
  | [] => False
  | e :: es => e.Calls env f vs F ∨ CallsEach env f vs F es

/-- The same for conditions that are evaluated for as long as they have a given outcome. -/
def CallsWhile (env : Environment) (f : String) (vs : List Value) (outcome : Bool) (F : Format) :
    List Expr → Prop
  | [] => False
  | e :: es => e.Calls env f vs F ∨
      e.eval env F = some (.bool outcome) ∧ CallsWhile env f vs outcome F es

end

attribute [simp] Calls CallsEach CallsWhile

variable {env : Environment} {functions : String → Option Function}

theorem evalForeign_withFunctions {tokens : List Token}
    (h : ∀ f vs, .word f.toList ∈ tokens → Answers env functions f vs) :
    (env.withFunctions functions).evalForeign tokens = env.evalForeign tokens := by
  have hcalls : (fun f => if .word f.toList ∈ tokens then (env.withFunctions functions).call f
      else fun _ => none) = fun f => if .word f.toList ∈ tokens then env.call f
        else fun _ => none := by
    funext f vs
    -- The host sees no function that the tokens do not name.
    split
    · exact h f vs ‹_›
    · rfl
  exact congrArg (env.foreign tokens · env.values) hcalls

mutual

/-- The value of an expression depends on functions through its calls only. -/
theorem eval_withFunctions : (e : Expr) → (F : Format) →
    (∀ f vs, e.Calls env f vs F → Answers env functions f vs) →
    e.eval (env.withFunctions functions) F = e.eval env F
  | .name _, _, _ | .numeral _, _, _ | .verbatim _, _, _ => rfl
  | .foreign _, _, h => evalForeign_withFunctions h
  | .component vector _, F, h | .element vector _, F, h => by
    rw [eval, eval, eval_withFunctions vector F h]
  | .call function arguments, F, h => by
    have heach := evalEach_withFunctions arguments (literalFormat F function)
      fun f vs hcalls => h f vs (.inl hcalls)
    rw [eval, eval, heach]
    refine Option.bind_congr fun vs hvs => ?_
    exact h function vs (.inr ⟨rfl, hvs⟩)
  | .paren inner, F, h => eval_withFunctions inner F h
  | .arith _ left right, F, h | .compare _ left right, F, h => by
    rw [eval, eval, eval_withFunctions left F fun f vs hcalls => h f vs (.inl hcalls),
      eval_withFunctions right F fun f vs hcalls => h f vs (.inr hcalls)]
  | .all operands, F, h => by
    rw [eval, eval, evalAll_withFunctions operands F h]
  | .any operands, F, h => by
    rw [eval, eval, evalAny_withFunctions operands F h]
  | .choice condition yes no, F, h => by
    rw [eval, eval, eval_withFunctions condition F fun f vs hcalls => h f vs (.inl hcalls)]
    refine Option.bind_congr fun v hv => Option.bind_congr fun outcome houtcome => ?_
    obtain rfl := Value.eq_bool_of_toBool? houtcome
    -- Of the two branches, only the one that is taken has its calls answered.
    cases outcome with
    | true => exact eval_withFunctions yes F fun f vs hcalls => h f vs (.inr (.inl ⟨hv, hcalls⟩))
    | false => exact eval_withFunctions no F fun f vs hcalls => h f vs (.inr (.inr ⟨hv, hcalls⟩))

theorem evalEach_withFunctions : (es : List Expr) → (F : Format) →
    (∀ f vs, CallsEach env f vs F es → Answers env functions f vs) →
    evalEach (env.withFunctions functions) F es = evalEach env F es
  | [], _, _ => rfl
  | e :: es, F, h => by
    rw [evalEach, evalEach, eval_withFunctions e F fun f vs hcalls => h f vs (.inl hcalls),
      evalEach_withFunctions es F fun f vs hcalls => h f vs (.inr hcalls)]

theorem evalAll_withFunctions : (es : List Expr) → (F : Format) →
    (∀ f vs, CallsWhile env f vs true F es → Answers env functions f vs) →
    evalAll (env.withFunctions functions) F es = evalAll env F es
  | [], _, _ => rfl
  | e :: es, F, h => by
    rw [evalAll, evalAll, eval_withFunctions e F fun f vs hcalls => h f vs (.inl hcalls)]
    refine Option.bind_congr fun v hv => Option.bind_congr fun outcome houtcome => ?_
    obtain rfl := Value.eq_bool_of_toBool? houtcome
    cases outcome with
    | true => exact evalAll_withFunctions es F fun f vs hcalls => h f vs (.inr ⟨hv, hcalls⟩)
    | false => rfl

theorem evalAny_withFunctions : (es : List Expr) → (F : Format) →
    (∀ f vs, CallsWhile env f vs false F es → Answers env functions f vs) →
    evalAny (env.withFunctions functions) F es = evalAny env F es
  | [], _, _ => rfl
  | e :: es, F, h => by
    rw [evalAny, evalAny, eval_withFunctions e F fun f vs hcalls => h f vs (.inl hcalls)]
    refine Option.bind_congr fun v hv => Option.bind_congr fun outcome houtcome => ?_
    obtain rfl := Value.eq_bool_of_toBool? houtcome
    cases outcome with
    | true => rfl
    | false => exact evalAny_withFunctions es F fun f vs hcalls => h f vs (.inr ⟨hv, hcalls⟩)

end

end Expr

/-! ## Statements -/

variable {env : Environment} {functions : String → Option Function}

namespace Arm

/-- Whether a search for the first arm whose guard holds calls `f` on `vs`. -/
def SearchCalls (env : Environment) (f : String) (vs : List Value) (arms : List Arm) : Prop :=
  Expr.CallsWhile env f vs false .double (arms.map guard)

theorem firstHolding_withFunctions {arms : List Arm}
    (h : ∀ f vs, SearchCalls env f vs arms → Answers env functions f vs) :
    firstHolding (env.withFunctions functions) arms = firstHolding env arms := by
  induction arms with
  | nil => rfl
  | cons arm arms ih =>
    have hguard := arm.guard.eval_withFunctions .double fun f vs hcalls => h f vs (.inl hcalls)
    rw [firstHolding, firstHolding, Expr.holds?, Expr.holds?, Expr.value, hguard]
    refine Option.bind_congr fun outcome houtcome => ?_
    obtain ⟨v, hv, htest⟩ := Option.bind_eq_some_iff.1 houtcome
    obtain rfl := Value.eq_bool_of_toBool? htest
    cases outcome with
    | true => rfl
    | false => exact ih fun f vs hcalls => h f vs (.inr ⟨hv, hcalls⟩)

end Arm

namespace Stmt

/-- Whether running statements calls `f` on `vs`. -/
def Calls (env : Environment) (f : String) (vs : List Value) : List Stmt → Prop
  | [] => False
  | declare type name value :: rest =>
    value.Calls env f vs .double ∨ ∃ v w, value.value env = some v ∧ v.as? type = some w ∧
      Calls (env.assign name w) f vs rest
  | assign name value :: rest =>
    value.Calls env f vs .double ∨ ∃ old type v w, env.values name = some old ∧
      old.type? = some type ∧ value.value env = some v ∧ v.as? type = some w ∧
      Calls (env.assign name w) f vs rest
  | increase name value :: rest =>
    value.Calls env f vs .double ∨ ∃ old v new type w, env.values name = some old ∧
      value.value env = some v ∧ Arith.add.result? old v = some new ∧ old.type? = some type ∧
      new.as? type = some w ∧ Calls (env.assign name w) f vs rest
  | give value :: _ => value.Calls env f vs .double
  | giveFirst first others fallback :: rest =>
    Arm.SearchCalls env f vs (first :: others) ∨
      ∃ found, Arm.firstHolding env (first :: others) = some found ∧
        match found.or fallback with
        | some result => result.Calls env f vs .double
        | none => Calls env f vs rest

section

variable {rest : List Stmt} {f : String} {vs : List Value}

theorem calls_declare {type : Ty} {name : String} {value : Expr} {v w : Value}
    (hvalue : value.value env = some v) (htype : v.as? type = some w) :
    Calls env f vs (.declare type name value :: rest) ↔
      value.Calls env f vs .double ∨ Calls (env.assign name w) f vs rest := by
  simp [Calls, hvalue, htype]

theorem calls_assign {type : Ty} {name : String} {value : Expr} {old v w : Value}
    (hold : env.values name = some old) (holdType : old.type? = some type)
    (hvalue : value.value env = some v) (htype : v.as? type = some w) :
    Calls env f vs (.assign name value :: rest) ↔
      value.Calls env f vs .double ∨ Calls (env.assign name w) f vs rest := by
  simp [Calls, hold, holdType, hvalue, htype]

/-- One arm with a fallback. -/
theorem calls_giveFirst_fallback {arm : Arm} {fallback : Expr} {outcome : Bool}
    (h : Expr.Decides env .double arm.guard outcome) :
    Calls env f vs (.giveFirst arm [] (some fallback) :: rest) ↔
      arm.guard.Calls env f vs .double ∨
        (if outcome then arm.result else fallback).Calls env f vs .double := by
  rw [Expr.Decides] at h
  cases outcome <;>
    simp [Calls, Arm.SearchCalls, Arm.firstHolding, Expr.holds?, Expr.value, h]

end

/-- What statements return depends on functions through their calls only. -/
theorem run_withFunctions (statements : List Stmt)
    (h : ∀ f vs, Calls env f vs statements → Answers env functions f vs) :
    run (env.withFunctions functions) statements = run env statements := by
  -- Behind an assignment the environments still differ in their functions only.
  induction statements generalizing env with
  | nil => rfl
  | cons s rest ih =>
    cases s with
    | declare type name value =>
      have hvalue := value.eval_withFunctions .double fun f vs hcalls => h f vs (.inl hcalls)
      rw [run, run, Expr.value, hvalue]
      refine Option.bind_congr fun v hv => Option.bind_congr fun w hw => ?_
      exact @ih (env.assign name w) fun f vs hcalls => h f vs (.inr ⟨v, w, hv, hw, hcalls⟩)
    | assign name value =>
      have hvalue := value.eval_withFunctions .double fun f vs hcalls => h f vs (.inl hcalls)
      rw [run, run, Expr.value, hvalue]
      refine Option.bind_congr fun old hold => Option.bind_congr fun type htype => ?_
      refine Option.bind_congr fun v hv => Option.bind_congr fun w hw => ?_
      exact @ih (env.assign name w) fun f vs hcalls =>
        h f vs (.inr ⟨old, type, v, w, hold, htype, hv, hw, hcalls⟩)
    | increase name value =>
      have hvalue := value.eval_withFunctions .double fun f vs hcalls => h f vs (.inl hcalls)
      rw [run, run, Expr.value, hvalue]
      refine Option.bind_congr fun old hold => Option.bind_congr fun v hv => ?_
      refine Option.bind_congr fun new hnew => Option.bind_congr fun type htype => ?_
      refine Option.bind_congr fun w hw => @ih (env.assign name w) fun f vs hcalls => ?_
      exact h f vs (.inr ⟨old, v, new, type, w, hold, hv, hnew, htype, hw, hcalls⟩)
    | give value => exact value.eval_withFunctions .double h
    | giveFirst first others fallback =>
      have hsearch := Arm.firstHolding_withFunctions fun f vs hcalls => h f vs (.inl hcalls)
      rw [run, run, hsearch]
      refine Option.bind_congr fun found hfound => ?_
      have hrest f vs hcalls := h f vs (.inr ⟨found, hfound, hcalls⟩)
      cases hresult : found.or fallback with
      | none => exact ih fun f vs hcalls => hrest f vs (by simpa [hresult] using hcalls)
      | some result =>
        exact result.eval_withFunctions .double fun f vs hcalls =>
          hrest f vs (by simpa [hresult] using hcalls)

end Stmt

/-! ## Routines -/

theorem Environment.pass_withFunctions (params : List Param) (arguments : List Value) :
    (env.withFunctions functions).pass params arguments =
      (env.pass params arguments).map (·.withFunctions functions) := by
  induction params generalizing env arguments with
  | nil => cases arguments <;> rfl
  | cons p ps ih =>
    cases arguments with
    | nil => rfl
    | cons v vs =>
      rw [pass, pass]
      cases v.as? p.type with
      | none => rfl
      | some w => exact @ih (env.assign p.name w) vs

/-- Arguments do not change the functions. -/
theorem Environment.functions_of_pass {params : List Param} {arguments : List Value}
    {inner : Environment} (h : env.pass params arguments = some inner) :
    inner.functions = env.functions := by
  have hpass : env.pass params arguments =
      (env.pass params arguments).map (·.withFunctions env.functions) :=
    pass_withFunctions params arguments
  rw [h] at hpass
  rw [Option.some.inj hpass]
  rfl

namespace Routine

/-- Whether a routine, called on `arguments`, calls `f` on `vs`. -/
def Calls (r : Routine) (env : Environment) (arguments : List Value) (f : String)
    (vs : List Value) : Prop :=
  ∃ inner, env.pass r.params arguments = some inner ∧ Stmt.Calls inner f vs r.body

/-- What a routine returns depends on functions through its calls only. -/
theorem meaning_withFunctions {r : Routine} {arguments : List Value}
    (h : ∀ f vs, r.Calls env arguments f vs → Answers env functions f vs) :
    r.meaning (env.withFunctions functions) arguments = r.meaning env arguments := by
  rw [meaning, meaning, pass_withFunctions]
  cases hpass : env.pass r.params arguments with
  | none => rfl
  | some inner =>
    have hrun : Stmt.run (inner.withFunctions functions) r.body = Stmt.run inner r.body := by
      refine Stmt.run_withFunctions r.body fun f vs hcalls => ?_
      have hanswers := h f vs ⟨inner, hpass, hcalls⟩
      simpa [Answers, call, withFunctions, functions_of_pass hpass] using hanswers
    exact congrArg (Option.bind · (·.as? r.result)) hrun

end Routine

end Glsl

end CellularShader
