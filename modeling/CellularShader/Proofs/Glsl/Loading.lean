/- # Loading the text of a shader

The text of an expression is read as the expression. A text made of sections defines the routines
that its sections are the texts of. Sections need an empty line between them, as one of them may end
in a comment. Text that is put in front of a semicolon is cut on its own if it does not.
-/

import CellularShader.Glsl.Semantics
import CellularShader.Proofs.Glsl.Lexing
import CellularShader.Proofs.Glsl.Parsing

namespace CellularShader

namespace Glsl

open Token (scan)

/-! ## Sections -/

/-- Text that is cut into the given tokens when a line break follows it. -/
def ClosedLine (text : String) (toks : List Token) : Prop := Closed (text.toList ++ ['\n']) toks

theorem Closed.line {text : String} {toks : List Token} (h : Closed text.toList toks) :
    ClosedLine text toks := by
  simpa [ClosedLine] using h.append closed_newline

theorem Routine.closedLine_text {r : Routine} (h : r.Legible) (layout : Layout) :
    ClosedLine (r.text layout) r.tokens :=
  (r.closed_text h layout).line

/-- Sections are cut one by one. -/
theorem closed_joinSections {sections : List String} {toks : List (List Token)}
    (h : List.Forall₂ ClosedLine sections toks) {last : String} {lastToks : List Token}
    (hlast : Closed last.toList lastToks) :
    Closed (joinSections (sections ++ [last])).toList (toks.flatten ++ lastToks) := by
  induction h with
  | nil => simpa [joinSections] using hlast
  | @cons text t sections toks htext _ ih =>
    -- The first line break ends a comment that the section may end in.
    have hjoin : (joinSections (text :: sections ++ [last])).toList =
        (text.toList ++ ['\n']) ++ ['\n'] ++ (joinSections (sections ++ [last])).toList := by
      cases sections <;> simp [joinSections]
    rw [hjoin]
    simpa using (Closed.append htext closed_newline).append ih

/-! ## Text that ends in a symbol -/

/-- The characters that end every token before them and start none that goes on. -/
def closers : List Char := [' ', '\n', '(', ')', '[', ']', '{', '}', ',', ';']

/-- Such a character extends no token, as it is no second half of a pair. -/
theorem extend?_closer {c : Char} (hc : c ∈ closers) (t : Token) : t.extend? c = none := by
  have hall : closers.Forall fun c => Token.continuesWord c = false ∧ c.isDigit = false ∧
      c ≠ '.' ∧ Token.pairs.Forall (·.2 ≠ c) := by decide
  obtain ⟨hword, hdigit, hpoint, hpairs⟩ := List.forall_iff_forall_mem.1 hall c hc
  rw [List.forall_iff_forall_mem] at hpairs
  cases t with
  | word text => simp [Token.extend?, hword]
  | number text => simp [Token.extend?, hdigit, hpoint]
  | symbol text =>
    unfold Token.extend?
    split
    · simp_all
    · simp_all
    · exact if_neg fun hpair => hpairs _ hpair rfl
    · rfl

/-- Text is cut in two behind such a character. -/
theorem scan_append_closer {c : Char} (hc : c ∈ closers) (begun : Option Token)
    (cs rest : List Char) :
    scan begun (cs ++ c :: rest) = scan begun (cs ++ [c]) ++ scan none rest := by
  have hends := extend?_closer hc
  -- Unless it is a blank, it starts a symbol that is no first half of a pair.
  have hstart : scan (some (Token.start c)) rest = Token.start c :: scan none rest ∨
      c.isWhitespace = true := by
    have hall : closers.Forall fun c => (Token.start c = .symbol [c] ∧
        Token.pairs.Forall (·.1 ≠ c)) ∨ c.isWhitespace = true := by decide
    refine (List.forall_iff_forall_mem.1 hall c hc).imp_left fun h => scan_stop fun d _ => ?_
    obtain ⟨hsymbol, hpairs⟩ := h
    rw [List.forall_iff_forall_mem] at hpairs
    rw [hsymbol]
    exact if_neg fun hpair => hpairs _ hpair rfl
  -- The token that is being read is arbitrary, so that the induction can pass it on.
  induction cs generalizing begun with
  | nil =>
    cases hblank : c.isWhitespace with
    | true => cases begun <;> simp [scan, hends, hblank]
    | false =>
      have hstart := hstart.resolve_right (by simp [hblank])
      cases begun <;> simp [scan, hends, hblank, hstart]
  | cons d cs ih =>
    rw [List.cons_append, List.cons_append, scan, scan]
    split
    · exact ih _
    · split <;> rw [ih, List.append_assoc]

/-- Text without comments that ends in such a character is cut on its own. -/
theorem closed_of_scan {cs : List Char} {toks : List Token} (hslash : '/' ∉ cs) {c : Char}
    (hlast : cs.getLast? = some c) (hc : c ∈ closers) (htoks : scan none cs = toks) :
    Closed cs toks := by
  obtain ⟨cs, rfl⟩ := List.getLast?_eq_some_iff.1 hlast
  intro rest
  rw [lex, withoutComments_append hslash, List.append_assoc, List.singleton_append,
    scan_append_closer hc, htoks]
  rfl

/-! ## Text in front of a semicolon -/

/-- Text that does not end inside a comment: a semicolon behind it is code. -/
def EndsInCode (text : List Char) : Prop :=
  withoutComments (text ++ [';']) = withoutComments text ++ [';']

instance : DecidablePred EndsInCode := fun _ => inferInstanceAs (Decidable (_ = _))

theorem withoutComments_append_semicolon :
    (∀ cs, EndsInCode cs → ∀ rest,
      withoutComments (cs ++ ';' :: rest) = withoutComments cs ++ ';' :: withoutComments rest) ∧
    (∀ cs, afterLine (cs ++ [';']) = afterLine cs ++ [';'] → ∀ rest,
      afterLine (cs ++ ';' :: rest) = afterLine cs ++ ';' :: withoutComments rest) ∧
    ∀ cs, afterBlock (cs ++ [';']) = afterBlock cs ++ [';'] → ∀ rest,
      afterBlock (cs ++ ';' :: rest) = afterBlock cs ++ ';' :: withoutComments rest := by
  apply withoutComments.mutual_induct
  case case1 =>
    intro cs ih h rest
    simp only [EndsInCode, List.cons_append, withoutComments, List.cons.injEq, true_and] at h
    simp only [List.cons_append, withoutComments, ih h]
  case case2 =>
    intro cs ih h rest
    simp only [EndsInCode, List.cons_append, withoutComments, List.cons.injEq, true_and] at h
    simp only [List.cons_append, withoutComments, ih h]
  case case3 =>
    intro c cs hstar hslash ih h rest
    have hcons (tail : List Char) :
        withoutComments (c :: (cs ++ ';' :: tail)) = c :: withoutComments (cs ++ ';' :: tail) := by
      rw [withoutComments]
      · intro others hc heq
        obtain ⟨y, rfl⟩ := exists_eq_cons heq (by decide)
        exact hstar y hc rfl
      · intro others hc heq
        obtain ⟨y, rfl⟩ := exists_eq_cons heq (by decide)
        exact hslash y hc rfl
    have hself : withoutComments (c :: cs) = c :: withoutComments cs := by
      rw [withoutComments]
      · exact hstar
      · exact hslash
    rw [EndsInCode, List.cons_append, hcons, hself, List.cons_append, List.cons.injEq] at h
    rw [List.cons_append, hcons, hself, ih h.2, List.cons_append]
  case case4 =>
    intro _ rest
    exact withoutComments_cons (by decide) rest
  case case5 =>
    intro cs ih h rest
    simp only [List.cons_append, afterLine, List.cons.injEq, true_and] at h
    simp only [List.cons_append, afterLine, ih h]
  case case6 =>
    intro c cs hc ih h rest
    rw [List.cons_append, afterLine, afterLine] at h
    · rw [List.cons_append, afterLine, afterLine, ih h]
      · exact hc
      · exact hc
    · exact hc
    · exact hc
  case case7 =>
    intro h
    cases h
  case case8 =>
    intro cs ih h rest
    simp only [List.cons_append, afterBlock] at h ⊢
    exact ih h rest
  case case9 =>
    intro c cs hc ih h rest
    have hcons (tail : List Char) :
        afterBlock (c :: (cs ++ ';' :: tail)) = afterBlock (cs ++ ';' :: tail) := by
      rw [afterBlock]
      intro others hstar heq
      obtain ⟨y, rfl⟩ := exists_eq_cons heq (by decide)
      exact hc y hstar rfl
    have hself : afterBlock (c :: cs) = afterBlock cs := by
      rw [afterBlock]
      exact hc
    rw [List.cons_append, hcons, hself] at h
    rw [List.cons_append, hcons, hself, ih h]
  case case10 =>
    intro h
    cases h

/-- A semicolon is a token of its own. -/
theorem scan_append_semicolon (begun : Option Token) (cs : List Char) :
    scan begun (cs ++ [';']) = scan begun cs ++ [.symbol [';']] := by
  induction cs generalizing begun with
  | nil =>
    cases begun with
    | none => rfl
    | some t =>
      have hstop : scan (some t) [';'] = t :: scan none [';'] := by
        refine scan_stop fun c hc => ?_
        cases hc
        exact extend?_closer (by decide) t
      exact hstop
  | cons c cs ih =>
    rw [List.cons_append, scan, scan]
    split
    · exact ih _
    · split <;> rw [ih, List.append_assoc]

/-- The tokens in front of the semicolon are those of the text. -/
theorem lex_append_semicolon {text : List Char} (h : EndsInCode text) (rest : List Char) :
    lex (text ++ ';' :: rest) = lex text ++ .symbol [';'] :: lex rest := by
  rw [lex, withoutComments_append_semicolon.1 text h, scan_append_closer (by decide),
    scan_append_semicolon, List.append_assoc]
  rfl

/-! ## Expressions -/

namespace Expr

variable {e : Expr}

theorem Fits.tokens_text (h : e.Fits .choice) : Glsl.tokens e.text = e.tokens := by
  have hlex := h.lex_text [] nofun
  rw [List.append_nil] at hlex
  exact hlex.trans (List.append_nil _)

/-- The text of an expression is read as the expression. -/
theorem Fits.ofText?_text (h : e.Fits .choice) : ofText? e.text = some e := by
  rw [ofText?, Reader.run, h.tokens_text, h.expression_tokens]

end Expr

/-! ## Routines -/

namespace Routine

/-- Text that is cut into tokens which one routine is read from defines that routine. -/
theorem ofText?_of_reads {text : String} {toks : List Token} {r : Routine}
    (h : Closed text.toList toks) (hne : toks ≠ []) (hread : Reader.routine toks = some (r, [])) :
    ofText? text = some [r] := by
  have htokens : Glsl.tokens text = toks := by
    simpa [lex, scan, withoutComments, Glsl.tokens] using h []
  obtain ⟨t, others, rfl⟩ := List.exists_cons_of_ne_nil hne
  have hone : Reader.bounded Reader.routines (t :: others) = some ([r], []) :=
    Reader.step rfl (Reader.step hread (Reader.step (Reader.step rfl rfl) rfl))
  rw [ofText?, Reader.run, htokens, hone]

/-- Text that is cut into the tokens of legible routines defines these. -/
theorem ofText?_of_closed {text : String} {rs : List Routine}
    (h : Closed text.toList (rs.flatMap tokens)) (hlegible : ∀ r ∈ rs, r.Legible) :
    ofText? text = some (rs.map joined) := by
  have htokens : Glsl.tokens text = rs.flatMap tokens := by
    simpa [lex, scan, withoutComments, Glsl.tokens] using h []
  have hread : Reader.bounded Reader.routines (rs.flatMap tokens) = some (rs.map joined, []) :=
    reads_all hlegible (Nat.lt_succ_of_le (Reader.length_le_length_flatMap rs tokens_ne_nil))
  rw [ofText?, Reader.run, htokens, hread]

theorem meaning_joined (r : Routine) (env : Environment) :
    r.joined.meaning env = r.meaning env := by
  funext arguments
  rw [meaning, meaning, body_joined]
  rfl

end Routine

namespace Environment

theorem define_joined (env : Environment) (r : Routine) : env.define r.joined = env.define r := by
  rw [define, Routine.meaning_joined]
  rfl

/-- Sections that are cut into the tokens of routines are loaded as these routines. -/
theorem load_joinSections {sections : List String} {last : String} {toks : List (List Token)}
    {rs : List Routine} {r : Routine} (hsections : List.Forall₂ ClosedLine sections toks)
    (hlast : Closed last.toList r.tokens) (htoks : toks.flatten = rs.flatMap Routine.tokens)
    (hlegible : ∀ r' ∈ rs ++ [r], r'.Legible) (env : Environment) :
    env.load (joinSections (sections ++ [last])) = some ((rs.foldl define env).define r) := by
  have hclosed := closed_joinSections hsections hlast
  have hall : toks.flatten ++ r.tokens = (rs ++ [r]).flatMap Routine.tokens := by
    simp [htoks]
  have hfold (rs : List Routine) (env : Environment) :
      (rs.map Routine.joined).foldl define env = rs.foldl define env := by
    simp [List.foldl_map, define_joined]
  rw [load, Routine.ofText?_of_closed (hall ▸ hclosed) hlegible]
  simp only [Option.bind_eq_bind, Option.bind_some, Option.pure_def, hfold, List.foldl_append,
    List.foldl_cons, List.foldl_nil]

end Environment

end Glsl

end CellularShader
