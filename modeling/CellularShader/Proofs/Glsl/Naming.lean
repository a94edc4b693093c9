/- # Functions are called by name

An expression that is read from tokens calls no function but those whose names are among the tokens.
So a text that does not contain the name of a function does not call it, whatever else it says.
-/

import CellularShader.Proofs.Glsl.Calls

namespace CellularShader

namespace Glsl

/-! ## Expressions -/

namespace Expr

/-- Every function that the expression can call is a word among the tokens. -/
def NamedIn (T : List Token) (e : Expr) : Prop :=
  ∀ env f vs F, e.Calls env f vs F → .word f.toList ∈ T

variable {T : List Token} {e left right : Expr} {es : List Expr}

section

variable {env : Environment} {f : String} {vs : List Value} {F : Format}

theorem mem_of_callsEach (h : ∀ e ∈ es, e.NamedIn T) (hcalls : CallsEach env f vs F es) :
    .word f.toList ∈ T := by
  induction es with
  | nil => exact absurd hcalls id
  | cons e es ih =>
    rw [List.forall_mem_cons] at h
    rcases hcalls with hcalls | hcalls
    · exact h.1 env f vs F hcalls
    · exact ih h.2 hcalls

/-- Conditions that are not all evaluated make no other calls. -/
theorem callsEach_of_callsWhile {outcome : Bool} (h : CallsWhile env f vs outcome F es) :
    CallsEach env f vs F es := by
  induction es with
  | nil => exact h
  | cons e es ih =>
    rcases h with h | ⟨-, h⟩
    · exact .inl h
    · exact .inr (ih h)

theorem mem_of_callsWhile {outcome : Bool} (h : ∀ e ∈ es, e.NamedIn T)
    (hcalls : CallsWhile env f vs outcome F es) : .word f.toList ∈ T :=
  mem_of_callsEach h (callsEach_of_callsWhile hcalls)

theorem mem_of_calls_or (hleft : left.NamedIn T) (hright : right.NamedIn T)
    (h : left.Calls env f vs F ∨ right.Calls env f vs F) : .word f.toList ∈ T := by
  rcases h with h | h
  · exact hleft env f vs F h
  · exact hright env f vs F h

end

theorem namedIn_call {function : List Char} (hword : .word function ∈ T)
    (h : ∀ e ∈ es, e.NamedIn T) : (call (String.ofList function) es).NamedIn T := by
  rintro env f vs F (hcalls | ⟨rfl, -⟩)
  · exact mem_of_callsEach h hcalls
  · rwa [String.toList_ofList]

theorem namedIn_all (h : ∀ e ∈ es, e.NamedIn T) : (all es).NamedIn T :=
  fun _ _ _ _ => mem_of_callsWhile h

theorem namedIn_any (h : ∀ e ∈ es, e.NamedIn T) : (any es).NamedIn T :=
  fun _ _ _ _ => mem_of_callsWhile h

theorem namedIn_choice (he : e.NamedIn T) (hleft : left.NamedIn T) (hright : right.NamedIn T) :
    (choice e left right).NamedIn T := by
  rintro env f vs F (hcalls | ⟨-, hcalls⟩ | ⟨-, hcalls⟩)
  · exact he env f vs F hcalls
  · exact hleft env f vs F hcalls
  · exact hright env f vs F hcalls

end Expr

/-! ## Readers -/

namespace Reader

open Glsl.Expr

variable {α β : Type} {T : List Token} {P : α → Prop} {Q : β → Prop}

/-- Of tokens among `T` the reader leaves some, and its result is as described. -/
def Yields (T : List Token) (P : α → Prop) (reader : Reader α) : Prop :=
  ∀ toks a rest, toks ⊆ T → reader toks = some (a, rest) → rest ⊆ T ∧ P a

theorem yields_pure {a : α} (h : P a) : Yields T P (pure a) := by
  intro toks b rest htoks hread
  cases hread
  exact ⟨htoks, h⟩

theorem yields_failure : Yields T P failure := by
  intro toks a rest _ hread
  cases hread

theorem Yields.bind {x : Reader α} {f : α → Reader β} (hx : Yields T P x)
    (hf : ∀ a, P a → Yields T Q (f a)) : Yields T Q (x >>= f) := by
  intro toks b rest htoks hread
  obtain ⟨⟨a, middle⟩, hfirst, hread⟩ := Option.bind_eq_some_iff.1 hread
  obtain ⟨hmiddle, ha⟩ := hx toks a middle htoks hfirst
  exact hf a ha middle b rest hmiddle hread

theorem Yields.bounded {reader : Nat → Reader α} (h : ∀ steps, Yields T P (reader steps)) :
    Yields T P (bounded reader) :=
  fun toks => h (toks.length + 1) toks

theorem yields_accept (t : Token) : Yields T (fun _ => True) (accept t) := by
  intro toks a rest htoks hread
  cases toks with
  | nil =>
    cases hread
    exact ⟨htoks, trivial⟩
  | cons s toks =>
    rw [accept] at hread
    split at hread
    · cases hread
      exact ⟨List.subset_of_cons_subset htoks, trivial⟩
    · cases hread
      exact ⟨htoks, trivial⟩

theorem yields_expect (t : Token) : Yields T (fun _ => True) (expect t) := by
  refine (yields_accept t).bind fun found _ => ?_
  cases found with
  | true => exact yields_pure trivial
  | false => exact yields_failure

variable {item : Reader α}

theorem Yields.separated (h : Yields T P item) (separator : String) (steps : Nat) :
    Yields T (fun as => ∀ a ∈ as, P a) (separated separator item steps) := by
  induction steps with
  | zero => exact yields_failure
  | succ steps ih =>
    refine h.bind fun first hfirst => (yields_accept _).bind fun more _ => ?_
    cases more with
    | true =>
      refine ih.bind fun others hothers => yields_pure ?_
      exact List.forall_mem_cons.2 ⟨hfirst, hothers⟩
    | false => exact yields_pure (by simpa using hfirst)

theorem Yields.listed (h : Yields T P item) : Yields T (fun as => ∀ a ∈ as, P a) (listed item) := by
  refine (yields_accept _).bind fun closed _ => ?_
  cases closed with
  | true => exact yields_pure (by simp)
  | false =>
    refine (Yields.bounded (h.separated ",")).bind fun items hitems => ?_
    exact (yields_expect _).bind fun _ _ => yields_pure hitems

variable {nested reader : Reader Expr} {operator? : Token → Option (Expr → Expr → Expr)}

/-- Every operator is one of arithmetic or a comparison. -/
def Combines (operator? : Token → Option (Expr → Expr → Expr)) : Prop :=
  ∀ t combine, operator? t = some combine →
    (∃ operator, combine = .arith operator) ∨ ∃ operator, combine = .compare operator

theorem combines_product : Combines product? := by
  intro t combine h
  unfold product? at h
  split at h <;> cases h
  exact .inl ⟨_, rfl⟩

theorem combines_sum : Combines sum? := by
  intro t combine h
  unfold sum? at h
  split at h <;> cases h
  all_goals exact .inl ⟨_, rfl⟩

theorem combines_order : Combines order? := by
  intro t combine h
  unfold order? at h
  split at h <;> cases h
  all_goals exact .inr ⟨_, rfl⟩

theorem combines_equality : Combines equality? := by
  intro t combine h
  unfold equality? at h
  split at h <;> cases h
  exact .inr ⟨_, rfl⟩

theorem Combines.namedIn (h : Combines operator?) {t : Token} {combine : Expr → Expr → Expr}
    (hcombine : operator? t = some combine) {left right : Expr} (hleft : left.NamedIn T)
    (hright : right.NamedIn T) : (combine left right).NamedIn T := by
  intro env f vs F
  obtain ⟨operator, rfl⟩ | ⟨operator, rfl⟩ := h t combine hcombine
  · exact mem_of_calls_or hleft hright
  · exact mem_of_calls_or hleft hright

theorem yields_tail : Yields T (fun _ => True) (modify List.tail) := by
  intro toks a rest htoks hread
  cases hread
  exact ⟨List.Subset.trans (List.tail_sublist toks).subset htoks, trivial⟩

theorem Yields.grouped (h : Yields T (NamedIn T) reader) (hcombines : Combines operator?)
    (steps : Nat) {left : Expr} (hleft : left.NamedIn T) :
    Yields T (NamedIn T) (grouped operator? reader steps left) := by
  -- What has been read so far is the left operand of the next step.
  induction steps generalizing left with
  | zero => exact yields_failure
  | succ steps ih =>
    have hget : Yields T (fun _ => True) (get : Reader (List Token)) := by
      intro toks a rest htoks hread
      cases hread
      exact ⟨htoks, trivial⟩
    refine hget.bind fun toks _ => ?_
    cases hoperator : toks.head?.bind operator? with
    | none => exact yields_pure hleft
    | some combine =>
      obtain ⟨t, -, ht⟩ := Option.bind_eq_some_iff.1 hoperator
      refine yields_tail.bind fun _ _ => h.bind fun right hright => ?_
      exact ih (hcombines.namedIn ht hleft hright)

theorem Yields.operation (h : Yields T (NamedIn T) reader) (hcombines : Combines operator?) :
    Yields T (NamedIn T) (operation operator? reader) :=
  h.bind fun _ hleft => .bounded fun steps => h.grouped hcombines steps hleft

theorem Yields.connected (h : Yields T (NamedIn T) reader) (symbol : String)
    {node : List Expr → Expr} (hnode : ∀ es : List Expr, (∀ e ∈ es, e.NamedIn T) →
      (node es).NamedIn T) : Yields T (NamedIn T) (connected symbol node reader) := by
  refine (Yields.bounded (h.separated symbol)).bind fun operands hoperands => ?_
  cases operands with
  | nil => exact yields_pure (hnode _ hoperands)
  | cons first others =>
    cases others with
    | nil => exact yields_pure (hoperands first List.mem_cons_self)
    | cons => exact yields_pure (hnode _ hoperands)

/-- Selecting a part of a value calls nothing. -/
theorem yields_selections {e : Expr} (he : e.NamedIn T) {toks : List Token} (htoks : toks ⊆ T) :
    (selections e toks).2 ⊆ T ∧ (selections e toks).1.NamedIn T := by
  fun_induction selections e toks with
  | case1 e selector rest ih =>
    simp only [List.cons_subset] at htoks
    exact ih he htoks.2.2
  | case2 e digits rest position hposition ih =>
    simp only [List.cons_subset] at htoks
    exact ih he htoks.2.2.2
  | case3 | case4 => exact ⟨htoks, he⟩

theorem Yields.application (h : Yields T (NamedIn T) nested) {function : List Char}
    (hword : .word function ∈ T) : Yields T (NamedIn T) (application nested function) :=
  h.listed.bind fun _ harguments => yields_pure (namedIn_call hword harguments)

theorem Yields.parenthesised (h : Yields T (NamedIn T) nested) :
    Yields T (NamedIn T) (parenthesised nested) :=
  h.bind fun _ hinner => (yields_expect _).bind fun _ _ => yields_pure hinner

theorem Yields.atom (h : Yields T (NamedIn T) nested) : Yields T (NamedIn T) (atom nested) := by
  intro toks e rest htoks hread
  unfold Reader.atom at hread
  -- Only a word in front of a parenthesis becomes a call, and that word is among the tokens.
  split at hread
  case h_1 function toks =>
    simp only [List.cons_subset] at htoks
    exact h.application htoks.1 toks e rest htoks.2.2 hread
  case h_2 name toks _ =>
    cases hread
    simp only [List.cons_subset] at htoks
    exact ⟨htoks.2, fun _ _ _ _ => False.elim⟩
  case h_3 digits toks =>
    cases hread
    simp only [List.cons_subset] at htoks
    exact ⟨htoks.2, fun _ _ _ _ => False.elim⟩
  case h_4 digits toks =>
    cases hread
    simp only [List.cons_subset] at htoks
    exact ⟨htoks.2.2, fun _ _ _ _ => False.elim⟩
  case h_5 toks =>
    simp only [List.cons_subset] at htoks
    exact h.parenthesised toks e rest htoks.2 hread
  case h_6 => cases hread

theorem Yields.operand (h : Yields T (NamedIn T) nested) :
    Yields T (NamedIn T) (Reader.operand nested) := by
  refine h.atom.bind fun e he => ?_
  intro toks e' rest htoks hread
  have hselections := yields_selections he htoks
  rwa [Option.some.inj hread] at hselections

theorem Yields.disjunction (h : Yields T (NamedIn T) nested) :
    Yields T (NamedIn T) (disjunction nested) := by
  have hoperations := (((h.operand.operation combines_product).operation combines_sum).operation
    combines_order).operation combines_equality
  exact (hoperations.connected "&&" fun _ => namedIn_all).connected "||" fun _ => namedIn_any

theorem yields_nestedExpression (depth : Nat) :
    Yields T (NamedIn T) (nestedExpression depth) := by
  induction depth with
  | zero => exact yields_failure
  | succ depth ih =>
    refine ih.disjunction.bind fun condition hcondition => (yields_accept _).bind fun found _ => ?_
    cases found with
    | true =>
      refine ih.bind fun yes hyes => (yields_expect _).bind fun _ _ => ih.bind fun no hno => ?_
      exact yields_pure (namedIn_choice hcondition hyes hno)
    | false => exact yields_pure hcondition

/-- An expression that tokens make up calls functions by words among them. -/
theorem namedIn_of_wholeExpression {toks : List Token} {e : Expr}
    (h : wholeExpression toks = some e) : e.NamedIn toks := by
  rw [wholeExpression] at h
  split at h
  case h_1 e' hread =>
    cases h
    exact (yields_nestedExpression _ toks _ _ (List.Subset.refl toks) hread).2
  case h_2 =>
    -- Tokens that are kept as such call what they name by definition.
    split at h
    · cases h
      exact fun env f vs F hword => hword
    · cases h

end Reader

end Glsl

end CellularShader
