/- # What a transition returns

The transition routine of a rule, called with a state and a position, returns the next state of the
rule. Its statements are run in an environment that knows the voxel and answers calls of the tally;
the families with birth and survival also need the user's share, and a stochastic rule the draw.
-/

import CellularShader.Proofs.Count.Cover
import CellularShader.Proofs.Neighbourhood.Tally

namespace CellularShader

open Glsl Glsl.Expr

/-- What the statements of a transition are run in. -/
structure Frame (env : Environment) (p : Vec) (v : View) : Prop where
  state : env.values "currentValue" = some (.int v.state)
  position : env.values "position" = some (.vec3 p)

/-- What the families with birth and survival need in addition. -/
structure LiveFrame (env : Environment) (p : Vec) (v : View) : Prop extends Frame env p v where
  live : env.call "getNeighbourhood" [.vec3 p] = some (.int v.live)
  share : ∃ others, env.values "iArgs" = some (.floats (v.share :: others))

/-- What the families with a cycle of states need in addition. -/
structure CyclicFrame (env : Environment) (p : Vec) (v : View) : Prop extends Frame env p v where
  inState : ∀ k, env.call "getNeighbourhoodCond" [.vec3 p, .int k] = some (.int (v.inState k))

variable {env : Environment} {F : Format} {p : Vec} {v : View}

theorem Frame.lookup_currentValue (h : Frame env p v) :
    env.lookup "currentValue" = some (.int v.state) :=
  (env.lookup_eq_values (by decide) (by decide)).trans h.state

theorem Frame.assign (h : Frame env p v) {name : String} (hstate : "currentValue" ≠ name)
    (hposition : "position" ≠ name) (x : Value) : Frame (env.assign name x) p v where
  state := by simpa [hstate] using h.state
  position := by simpa [hposition] using h.position

theorem LiveFrame.assign_sum (h : LiveFrame env p v) (x : Value) :
    LiveFrame (env.assign "sum" x) p v :=
  ⟨h.toFrame.assign (by decide) (by decide) x, h.live, by simpa using h.share⟩

theorem lookup_assign_sum (env : Environment) (x : Value) :
    (env.assign "sum" x).lookup "sum" = some x := by
  simp [Environment.lookup]

/-! ## Expressions -/

theorem decides_compareInt {identifier : String} {m : Int} (operator : Comparison)
    (h : env.lookup identifier = some (.int m)) (n : Int) :
    Decides env F (compareInt operator (.name identifier) n) (operator.onInt m n) :=
  decides_compare operator h (eval_int n)

/-- Comparisons with the state of the voxel. -/
theorem Frame.decides_state (h : Frame env p v) (operator : Comparison) (n : Int) :
    Decides env F (compareInt operator currentValue n) (operator.onInt v.state n) :=
  decides_compareInt operator h.lookup_currentValue n

theorem fits_compareInt {identifier : String} (operator : Comparison)
    (h : Token.isWord identifier.toList = true) (n : Int) :
    Fits .equality (compareInt operator (.name identifier) n) :=
  .compare (by cases operator <;> decide) (.name h) (fits_int n)

theorem withinBounds_decide {n : Nat} (h : env.lookup "sum" = some (.int n)) (low high : Int32) :
    DecideTogether env F (withinBounds low high) (betweenBounds low high n) :=
  (decides_compareInt .ge h low.toInt).together.append
    (decides_compareInt .le h high.toInt).together

theorem fits_withinBounds (low high : Int32) : ∀ e ∈ withinBounds low high, Fits .equality e := by
  simp [withinBounds, fits_compareInt _ (by decide : Token.isWord "sum".toList = true)]

/-- The state of a live voxel is the integer part of its share of the count, above one. -/
theorem value_grown {total : Nat} {share : Rat} (hshare : 0 ≤ share)
    (hsum : env.lookup "sum" = some (.int total))
    (hsumAdd : env.lookup "sumAdd" = some (.float share)) :
    grown.value env = some (.int (1 + (total * share).floor)) := by
  -- Truncation rounds down as nothing here is negative.
  have htruncate : truncate (total * share) = (total * share).floor :=
    if_pos (mul_nonneg (Nat.cast_nonneg total) hshare)
  simp [grown, Expr.value, eval, evalEach, Environment.call, builtin?, hsum, hsumAdd,
    Arith.result?, Arith.onInt, Arith.onRat, htruncate]

/-- The position in the cycle a number of steps ahead. -/
theorem value_advanced {state : Int} (hstate : env.lookup "currentValue" = some (.int state))
    (steps : Int) {cycle : Int} (hcycle : cycle ≠ 0) :
    (advanced steps cycle).value env = some (.int (Int.fmod (state + steps) cycle)) := by
  have hmod : floorMod? ((state : Rat) + steps) cycle =
      some ((Int.fmod (state + steps) cycle : Int) : Rat) := by
    exact_mod_cast floorMod?_intCast (m := state + steps) hcycle
  simp [advanced, currentValue, Expr.value, eval, evalEach, Environment.call, builtin?, hstate,
    Arith.result?, Arith.onInt, hmod]

theorem value_atPosition_live (h : LiveFrame env p v) :
    (Tally.live.atPosition []).value env = some (.int v.live) := by
  simp [Tally.atPosition, Tally.name, Expr.value, eval, evalEach, Environment.lookup, h.position,
    h.live]

theorem value_atPosition_matching (h : CyclicFrame env p v) {e : Expr} {k : Int}
    (he : e.eval env .double = some (.int k)) :
    (Tally.matching.atPosition [e]).value env = some (.int (v.inState k)) := by
  simp [Tally.atPosition, Tally.name, Expr.value, eval, evalEach, literalFormat,
    Environment.lookup, h.position, he, h.inState]

/-! ## Families with birth and survival -/

/-- The user's share, cut to the unit interval. -/
def View.cutShare (v : View) : Rat :=
  if v.share < 0 then 0 else if 1 < v.share then 1 else v.share

theorem View.cutShare_nonneg (v : View) : 0 ≤ v.cutShare := by
  unfold View.cutShare
  split_ifs <;> linarith

theorem run_declareShare (h : LiveFrame env p v) (rest : List Stmt) :
    Stmt.run env (declareShare :: rest) =
      Stmt.run (env.assign "sumAdd" (.float v.cutShare)) rest := by
  obtain ⟨others, hshare⟩ := h.share
  have hzero : Value.ofNumeral? .double "0." = some (.float 0) := by decide +kernel
  have hone : Value.ofNumeral? .double "1." = some (.float 1) := by decide +kernel
  have hclamp : clamp? v.share 0 1 = some v.cutShare := by
    rw [clamp?, if_neg (by norm_num), View.cutShare]
    split_ifs <;> rfl
  refine Stmt.run_declare (v := .float v.cutShare) ?_ rfl
  simp [Expr.value, eval, evalEach, literalFormat, Environment.lookup, hshare, hzero, hone,
    Value.element?, Environment.call, builtin?, hclamp]

/-- After its two declarations a transition with birth and survival knows the count and the
share. -/
def declared (env : Environment) (v : View) (total : Nat) : Environment :=
  (env.assign "sum" (.int total)).assign "sumAdd" (.float v.cutShare)

theorem lookup_sum_declared (env : Environment) (v : View) (total : Nat) :
    (declared env v total).lookup "sum" = some (.int total) := by
  simp [declared, Environment.lookup]

theorem value_grown_declared (env : Environment) (v : View) (total : Nat) :
    grown.value (declared env v total) = some (.int (v.grown total)) := by
  have hshare : (declared env v total).lookup "sumAdd" = some (.float v.cutShare) := by
    simp [declared, Environment.lookup]
  exact value_grown v.cutShare_nonneg (lookup_sum_declared env v total) hshare

/-- A transition with birth and survival decides between them by the state of the voxel. -/
theorem run_lifeBody (born survives : Nat → Bool) (h : LiveFrame env p v)
    {birth survival : List Expr}
    (hbirth : DecideTogether (declared env v v.live) .double birth (born v.live))
    (hsurvival : DecideTogether (declared env v v.live) .double survival (survives v.live)) :
    Stmt.run env (lifeBody birth survival) = some (.int (lifeStep v born survives)) := by
  have hframe : Frame (declared env v v.live) p v :=
    (h.assign_sum _).toFrame.assign (by decide) (by decide) _
  -- The first arm is for dead voxels and the second for live ones; a negative state passes both.
  have hdead := DecideTogether.cons (hframe.decides_state .eq 0) hbirth
  have halive := DecideTogether.cons (hframe.decides_state .gt 0) hsurvival
  rw [lifeBody, Stmt.run_declare (value_atPosition_live h) rfl,
    run_declareShare (h.assign_sum _), ← declared]
  rw [Stmt.run_giveFirst_cons hdead.all, Stmt.run_giveFirst_single halive.all,
    value_grown_declared, Stmt.run_give, Expr.value, eval_int, lifeStep]
  simp only [Comparison.onInt, Bool.and_eq_true, decide_eq_true_eq]
  split_ifs <;> grind

namespace VoteRule

/-- A vote counts the voxel itself among the live ones. -/
theorem run_body (r : VoteRule) (h : LiveFrame env p v) :
    Stmt.run env r.body = some (.int ((Rule.vote r).next v)) := by
  -- The choice adds the voxel itself.
  have hsum : (Expr.arith .add (Tally.live.atPosition []) (.paren (.choice
      (compareInt .gt currentValue 0) (.int 1) (.int 0)))).value env =
        some (.int (v.live + if 0 < v.state then 1 else 0 : Nat)) := by
    have hlive := value_atPosition_live h
    have halive : Decides env .double (compareInt .gt currentValue 0) (decide (0 < v.state)) :=
      h.decides_state .gt 0
    rw [Expr.value] at hlive
    rw [Decides] at halive
    by_cases hstate : 0 < v.state <;>
      simp [Expr.value, eval, hlive, halive, hstate, Arith.result?, Arith.onInt]
  rw [body, Stmt.run_declare hsum rfl, run_declareShare (h.assign_sum _), ← declared]
  rw [Stmt.run_giveFirst_single (decides_isCount r.vote (lookup_sum_declared env v _)),
    value_grown_declared, Stmt.run_give, Expr.value, eval_int, Rule.next]
  split_ifs <;> rfl

end VoteRule

/-! ## Families with a cycle of states -/

theorem run_declareExcited (h : CyclicFrame env p v) (rest : List Stmt) :
    Stmt.run env (declareExcited :: rest) =
      Stmt.run (env.assign "sum" (.int (v.inState 1))) rest :=
  Stmt.run_declare (value_atPosition_matching h (eval_int 1)) rfl

namespace GenerationsRule

/-- Excitation is decided by the excited neighbours, decay by the state alone. -/
theorem run_body (r : GenerationsRule) (hcycle : r.stateCount.toInt ≠ 0) (h : CyclicFrame env p v) :
    Stmt.run env r.body = some (.int ((Rule.generations r).next v)) := by
  have hframe : Frame (env.assign "sum" (.int (v.inState 1))) p v :=
    h.toFrame.assign (by decide) (by decide) _
  have hcount (counts : List Int32) := decides_isCount (F := .double) counts
    (lookup_assign_sum env (.int (v.inState 1)))
  have hbirth := (hframe.decides_state .eq 0).together.append (hcount r.birth).together
  have hsurvival := (hframe.decides_state .eq 1).together.append (hcount r.survival).together
  rw [body, run_declareExcited h, Stmt.run_giveFirst_cons hbirth.all,
    Stmt.run_giveFirst_cons hsurvival.all, Stmt.run_giveFirst_single (hframe.decides_state .gt 0),
    value_advanced hframe.lookup_currentValue 1 hcycle, Stmt.run_give]
  simp only [Expr.value, eval_int, Comparison.onInt, Bool.and_eq_true, decide_eq_true_eq, Rule.next]
  split_ifs <;> grind

end GenerationsRule

namespace NlukyRule

/-- Decay starts with phase two, except in a cycle of two phases. -/
theorem decayPhase_eq (r : NlukyRule) (hcycle : r.cycle ≠ 0) :
    r.decayPhase = if r.stateCount.toInt = -2 ∨ r.stateCount.toInt = 0 then 0 else 2 := by
  rw [decayPhase, if_neg hcycle]
  rw [cycle] at hcycle ⊢
  generalize r.stateCount.toInt = n at hcycle
  -- The remainder is that of truncated division, whose sign does not depend on the divisor's.
  split_ifs with h
  · rcases h with rfl | rfl <;> rfl
  · rw [Int.tmod_eq_emod_of_nonneg (by decide)]
    rcases lt_or_gt_of_ne hcycle with hneg | hpos
    · rw [← Int.emod_neg, Int.emod_eq_of_lt (by decide) (by omega)]
    · rw [Int.emod_eq_of_lt (by decide) (by omega)]

/-- Excitation is decided by the excited neighbours, decay by the state alone. -/
theorem run_body (r : NlukyRule) (hcycle : r.cycle ≠ 0) (h : CyclicFrame env p v) :
    Stmt.run env r.body = some (.int ((Rule.nluky r).next v)) := by
  have hframe : Frame (env.assign "sum" (.int (v.inState 1))) p v :=
    h.toFrame.assign (by decide) (by decide) _
  have hwithin (low high : Int32) := withinBounds_decide (F := .double)
    (lookup_assign_sum env (.int (v.inState 1))) low high
  have hbirth := DecideTogether.cons (hframe.decides_state .eq 0) (hwithin r.lowBirth r.highBirth)
  have hsurvival := DecideTogether.cons (hframe.decides_state .eq 1)
    (hwithin r.lowSurvival r.highSurvival)
  rw [body, run_declareExcited h, Stmt.run_giveFirst_cons hbirth.all,
    Stmt.run_giveFirst_cons hsurvival.all, Stmt.run_giveFirst_cons (hframe.decides_state .eq 1),
    Stmt.run_giveFirst_single (hframe.decides_state .ge 2),
    value_advanced hframe.lookup_currentValue 2 hcycle, Stmt.run_give]
  simp only [Expr.value, eval_int, Comparison.onInt, Bool.and_eq_true, decide_eq_true_eq, Rule.next,
    decayPhase_eq r hcycle]
  split_ifs <;> grind

end NlukyRule

namespace CyclicRule

theorem decides_advances (r : CyclicRule) (h : Frame env p v) {n : Nat}
    (hsum : env.lookup "sum" = some (.int n)) :
    Decides env F r.advances
      (decide (r.threshold.toInt ≤ n) || r.greenbergHastings && decide (0 < v.state)) := by
  have henough := decides_compareInt (F := F) .ge hsum r.threshold.toInt
  unfold advances
  -- Only that model has a second condition.
  cases r.greenbergHastings with
  | true =>
    have hany := decides_any (.cons henough (.cons (h.decides_state .gt 0) .nil))
    simpa [Comparison.onInt] using hany
  | false => simpa [Comparison.onInt] using henough

/-- A voxel advances by its neighbours in the next state. -/
theorem run_body (r : CyclicRule) (hcycle : r.stateCount.toInt ≠ 0) (h : CyclicFrame env p v) :
    Stmt.run env r.body = some (.int ((Rule.cyclic r).next v)) := by
  -- The next state is both the argument of the tally and the result, so it gets a name.
  generalize hnext : Int.fmod (v.state + 1) r.stateCount.toInt = next
  have hadvanced : (advanced 1 r.stateCount.toInt).value env = some (.int next) :=
    hnext ▸ value_advanced h.lookup_currentValue 1 hcycle
  have hframe : CyclicFrame (env.assign "nextValue" (.int next)) p v :=
    ⟨h.toFrame.assign (by decide) (by decide) _, h.inState⟩
  have hvalue : (Expr.name "nextValue").eval (env.assign "nextValue" (.int next)) .double =
      some (.int next) := by
    simp [eval, Environment.lookup]
  rw [body, Stmt.run_declare hadvanced rfl,
    Stmt.run_declare (value_atPosition_matching hframe hvalue) rfl]
  generalize henv : (env.assign "nextValue" (.int next)).assign "sum" (.int (v.inState next)) = env'
  have hframe' : Frame env' p v := henv ▸ hframe.toFrame.assign (by decide) (by decide) _
  have hsum : env'.lookup "sum" = some (.int (v.inState next)) := by
    simp [← henv, Environment.lookup]
  have hnextValue : (Expr.name "nextValue").value env' = some (.int next) := by
    simp [← henv, Expr.value, eval, Environment.lookup]
  have hcurrentValue : currentValue.value env' = some (.int v.state) := hframe'.lookup_currentValue
  rw [Stmt.run_giveFirst_single (r.decides_advances hframe' hsum), Stmt.run_give, hnextValue,
    hcurrentValue, Rule.next, hnext]
  simp only [Bool.or_eq_true, Bool.and_eq_true, decide_eq_true_eq]
  split_ifs <;> rfl

end CyclicRule

/-! ## Syntax -/

theorem fits_grown : Fits .choice grown :=
  .arith (by decide) (fits_int 1)
    (fits_call (by decide)
      (.arith (by decide) (fits_call (by decide) (.name (by decide))) (.name (by decide))))

theorem fits_advanced (steps cycle : Int) : Fits .choice (advanced steps cycle) :=
  fits_call (by decide)
    (fits_call (by decide)
      ⟨fits_call (by decide) (.arith (by decide) (.name (by decide)) (fits_int steps)),
        fits_int cycle⟩)

theorem legible_declareShare : declareShare.Legible :=
  ⟨by decide, fits_call (by decide)
    ⟨.element (by decide), .numeral (.plain (by decide)), .numeral (.plain (by decide))⟩⟩

/-- A comparison with the state in front of other conditions. -/
theorem fits_state_and (operator : Comparison) (n : Int) {others : List Expr} (hne : others ≠ [])
    (hothers : ∀ e ∈ others, Fits .equality e) :
    Fits .choice (.all (compareInt operator currentValue n :: others)) := by
  refine .all (by decide) ?_ ?_
  · simpa [Nat.succ_le_iff] using List.length_pos_iff.2 hne
  · intro e he
    rcases List.mem_cons.1 he with rfl | he
    · exact fits_compareInt operator (by decide) n
    · exact hothers e he

theorem legible_lifeBody {birth survival : List Expr} (hbirth : birth ≠ [])
    (hsurvival : survival ≠ []) (hfits : ∀ e ∈ birth ++ survival, Fits .equality e) :
    ∀ s ∈ lifeBody birth survival, s.Legible := by
  have hborn := fits_state_and .eq 0 hbirth fun e he => hfits e (List.mem_append_left _ he)
  have hsurvives := fits_state_and .gt 0 hsurvival fun e he => hfits e (List.mem_append_right _ he)
  intro s hs
  simp only [lifeBody, List.mem_cons, List.not_mem_nil, or_false] at hs
  rcases hs with rfl | rfl | rfl | rfl
  · exact ⟨by decide, fits_call (by decide) (.name (by decide))⟩
  · exact legible_declareShare
  · exact ⟨⟨hborn, fits_grown⟩, by simpa using ⟨hsurvives, fits_grown⟩, by simp⟩
  · exact fits_int 0

theorem legible_declareExcited : declareExcited.Legible :=
  ⟨by decide, fits_call (by decide) ⟨.name (by decide), fits_int 1⟩⟩

theorem VoteRule.legible_body (r : VoteRule) : ∀ s ∈ r.body, s.Legible := by
  have halive : Fits .disjunction (compareInt .gt currentValue 0) :=
    (fits_compareInt .gt (by decide) 0).mono (by decide)
  have hself : Fits .product (.paren (.choice (compareInt .gt currentValue 0) (.int 1) (.int 0))) :=
    .paren (.choice halive (fits_int 1) (fits_int 0))
  intro s hs
  simp only [body, List.mem_cons, List.not_mem_nil, or_false] at hs
  rcases hs with rfl | rfl | rfl | rfl
  · exact ⟨by decide, .arith (by decide) (fits_call (by decide) (.name (by decide))) hself⟩
  · exact legible_declareShare
  · exact ⟨⟨(fits_isCount r.vote (by decide)).mono (by decide), fits_grown⟩, by simp, by simp⟩
  · exact fits_int 0

theorem GenerationsRule.legible_body (r : GenerationsRule) : ∀ s ∈ r.body, s.Legible := by
  have hcount (n : Int) (counts : List Int32) :
      Fits .choice (.all [compareInt .eq currentValue n, .isCount counts "sum"]) :=
    fits_state_and .eq n (by simp) (by simpa using fits_isCount counts (by decide))
  have hdecay : Fits .choice (compareInt .gt currentValue 0) :=
    (fits_compareInt .gt (by decide) 0).mono (by decide)
  intro s hs
  simp only [body, List.mem_cons, List.not_mem_nil, or_false] at hs
  rcases hs with rfl | rfl | rfl
  · exact legible_declareExcited
  · refine ⟨⟨hcount 0 r.birth, fits_int 1⟩, ?_, by simp⟩
    simp only [List.forall_mem_cons, List.not_mem_nil, false_imp_iff, implies_true, and_true]
    exact ⟨⟨hcount 1 r.survival, fits_int 1⟩, hdecay, fits_advanced _ _⟩
  · exact fits_int 0

theorem NlukyRule.legible_body (r : NlukyRule) : ∀ s ∈ r.body, s.Legible := by
  have hbounds (n : Int) (low high : Int32) :
      Fits .choice (.all (compareInt .eq currentValue n :: withinBounds low high)) :=
    fits_state_and .eq n (by simp [withinBounds]) (fits_withinBounds low high)
  have hdecay (operator : Comparison) (n : Int) :
      Fits .choice (compareInt operator currentValue n) :=
    (fits_compareInt operator (by decide) n).mono (by decide)
  intro s hs
  simp only [body, List.mem_cons, List.not_mem_nil, or_false] at hs
  rcases hs with rfl | rfl | rfl
  · exact legible_declareExcited
  · refine ⟨⟨hbounds 0 _ _, fits_int 1⟩, ?_, by simp⟩
    simp only [List.forall_mem_cons, List.not_mem_nil, false_imp_iff, implies_true, and_true]
    exact ⟨⟨hbounds 1 _ _, fits_int 1⟩, ⟨hdecay .eq 1, fits_int _⟩, hdecay .ge 2, fits_advanced _ _⟩
  · exact fits_int 0

theorem CyclicRule.fits_advances (r : CyclicRule) : Fits .choice r.advances := by
  have henough : Fits .equality (compareInt .ge (.name "sum") r.threshold.toInt) :=
    fits_compareInt .ge (by decide) _
  have hleft : Fits .equality (compareInt .gt currentValue 0) := fits_compareInt .gt (by decide) 0
  unfold advances
  split
  · refine .any (by decide) (by simp) ?_
    simpa using ⟨henough.mono (by decide), hleft.mono (by decide)⟩
  · exact henough.mono (by decide)

theorem CyclicRule.legible_body (r : CyclicRule) : ∀ s ∈ r.body, s.Legible := by
  intro s hs
  simp only [body, List.mem_cons, List.not_mem_nil, or_false] at hs
  rcases hs with rfl | rfl | rfl | rfl
  · exact ⟨by decide, fits_advanced _ _⟩
  · exact ⟨by decide, fits_call (by decide) ⟨.name (by decide), .name (by decide)⟩⟩
  · exact ⟨⟨r.fits_advances, .name (by decide)⟩, by simp, by simp⟩
  · exact .name (by decide)

/-! ## Rules -/

namespace Rule

/-- The chances that a rule is written with: none is infinite. -/
def ChancesNotInfinite : Rule → Prop
  | extendedStochastic r =>
    ∀ e ∈ r.birth.entries ++ r.survival.entries, e.2.isFinite = true ∨ e.2.isNaN = true
  | _ => True

/-- The length of the cycle of states; for a rule without a cycle, one. -/
def modulus : Rule → Int
  | generations r | extendedGenerations r => r.stateCount.toInt
  | nluky r => r.cycle
  | cyclic r => r.stateCount.toInt
  | _ => 1

/-- The statements of a rule that counts live neighbours return its next state. -/
theorem run_body_live {r : Rule} (ht : r.tally = .live) (hchances : r.ChancesNotInfinite)
    (h : LiveFrame env p v)
    (hdraw : r.isStochastic = true → env.call "rand" [.vec3 p, .float 1] = some (.float v.draw)) :
    Stmt.run env r.body = some (.int (r.next v)) := by
  have hsum := lookup_sum_declared env v v.live
  cases r with
  | life r | extendedLife r =>
    exact run_lifeBody (amongCounts r.birth) (amongCounts r.survival) h
      (decides_isCount r.birth hsum).together (decides_isCount r.survival hsum).together
  | luky r =>
    exact run_lifeBody (betweenBounds r.lowBirth r.highBirth)
      (betweenBounds r.lowSurvival r.highSurvival) h
      (withinBounds_decide hsum r.lowBirth r.highBirth)
      (withinBounds_decide hsum r.lowSurvival r.highSurvival)
  | extendedStochastic r =>
    have hframe : Frame (declared env v v.live) p v :=
      (h.assign_sum _).toFrame.assign (by decide) (by decide) _
    have hposition : (declared env v v.live).lookup "position" = some (.vec3 p) :=
      (Environment.lookup_eq_values _ (by decide) (by decide)).trans hframe.position
    have hdraw := ChanceRun.eval_draw hposition (hdraw rfl)
    have hbirth := decides_fires (fun e he => hchances e (List.mem_append_left _ he)) hsum hdraw
    have hsurvival := decides_fires (fun e he => hchances e (List.mem_append_right _ he)) hsum hdraw
    exact run_lifeBody (Chances.fire r.birth · v.draw) (Chances.fire r.survival · v.draw) h
      hbirth.together hsurvival.together
  | vote r => exact r.run_body h
  | generations | extendedGenerations | nluky | cyclic => cases ht

/-- The statements of a rule that counts neighbours in a state return its next state. -/
theorem run_body_matching {r : Rule} (ht : r.tally = .matching) (hmodulus : r.modulus ≠ 0)
    (h : CyclicFrame env p v) : Stmt.run env r.body = some (.int (r.next v)) := by
  cases r with
  | generations r | extendedGenerations r => exact r.run_body hmodulus h
  | nluky r => exact r.run_body hmodulus h
  | cyclic r => exact r.run_body hmodulus h
  | life | extendedLife | extendedStochastic | vote | luky => cases ht

theorem legible_body {r : Rule} (hchances : r.ChancesNotInfinite) : ∀ s ∈ r.body, s.Legible := by
  cases r with
  | life r | extendedLife r =>
    refine legible_lifeBody (by simp) (by simp) ?_
    simpa using ⟨fits_isCount r.birth (by decide), fits_isCount r.survival (by decide)⟩
  | extendedStochastic r =>
    have hbirth : Fits .equality (.fires r.birth "sum" "position") :=
      fits_fires (fun e he => hchances e (List.mem_append_left _ he)) (by decide) (by decide)
    have hsurvival : Fits .equality (.fires r.survival "sum" "position") :=
      fits_fires (fun e he => hchances e (List.mem_append_right _ he)) (by decide) (by decide)
    exact legible_lifeBody (by simp) (by simp) (by simpa using ⟨hbirth, hsurvival⟩)
  | luky r =>
    refine legible_lifeBody (by simp [withinBounds]) (by simp [withinBounds]) fun e he => ?_
    rcases List.mem_append.1 he with he | he
    · exact fits_withinBounds _ _ e he
    · exact fits_withinBounds _ _ e he
  | vote r => exact r.legible_body
  | generations r | extendedGenerations r => exact r.legible_body
  | nluky r => exact r.legible_body
  | cyclic r => exact r.legible_body

/-- The transition of a rule is read as it is written. -/
theorem legible_process {r : Rule} (hchances : r.ChancesNotInfinite) : r.process.Legible where
  name := (by decide : Token.isWord "process".toList = true)
  params := by simp [process, processRoutine]; decide
  body := by simpa [Routine.body, process, processRoutine] using legible_body hchances

end Rule

end CellularShader
