/- # Cutting printed syntax into tokens

The text of a piece of syntax is cut into the tokens of that syntax, whatever follows it, as long as
what follows cannot extend the last token. Blanks and layout leave no trace.
-/

import CellularShader.Proofs.Glsl.Grammar

namespace CellularShader

namespace Glsl

open Token (isWord scan startsWord continuesWord)

/-- The tokens of characters, comments left out. -/
def lex (text : List Char) : List Token := scan none (withoutComments text)

/-! ## Characters -/

theorem withoutComments_cons {c : Char} (hc : c ≠ '/') (rest : List Char) :
    withoutComments (c :: rest) = c :: withoutComments rest := by
  simp [withoutComments, hc]

theorem withoutComments_append {cs : List Char} (hcs : '/' ∉ cs) (rest : List Char) :
    withoutComments (cs ++ rest) = cs ++ withoutComments rest := by
  induction cs with
  | nil => rfl
  | cons c cs ih =>
    rw [List.mem_cons, not_or] at hcs
    rw [List.cons_append, withoutComments_cons (Ne.symm hcs.1), ih hcs.2, List.cons_append]

theorem head?_withoutComments {rest : List Char} (h : ∀ c, rest.head? = some c → c ≠ '/') :
    (withoutComments rest).head? = rest.head? := by
  cases rest with
  | nil => rfl
  | cons c rest => rw [withoutComments_cons (h c rfl)]; rfl

/-- A text that goes on with one character but starts with another has that one at its start. -/
theorem exists_eq_cons {x tail rest : List Char} {c d : Char} (h : x ++ d :: tail = c :: rest)
    (hc : c ≠ d) : ∃ y, x = c :: y := by
  cases x with
  | nil => exact absurd (List.cons.inj h).1.symm hc
  | cons b y => exact ⟨y, by rw [(List.cons.inj h).1]⟩

/-- A token ends where the next character cannot extend it. -/
theorem scan_stop {t : Token} {rest : List Char}
    (h : ∀ c, rest.head? = some c → t.extend? c = none) :
    scan (some t) rest = t :: scan none rest := by
  cases rest with
  | nil => rfl
  | cons c rest => simp [scan, h c rfl]

theorem scan_word_append {cs : List Char} (hcs : cs.all continuesWord = true)
    (begun rest : List Char) :
    scan (some (.word begun)) (cs ++ rest) = scan (some (.word (begun ++ cs))) rest := by
  induction cs generalizing begun with
  | nil => simp
  | cons c cs ih =>
    simp only [List.all_cons, Bool.and_eq_true] at hcs
    simp [scan, Token.extend?, hcs.1, ih hcs.2]

theorem scan_number_append {cs : List Char} (hcs : ∀ c ∈ cs, c.isDigit = true ∨ c = '.')
    (begun rest : List Char) :
    scan (some (.number begun)) (cs ++ rest) = scan (some (.number (begun ++ cs))) rest := by
  induction cs generalizing begun with
  | nil => simp
  | cons c cs ih =>
    have hc : (c.isDigit || c = '.') = true := by simpa using hcs c List.mem_cons_self
    simp only [List.cons_append, scan, Option.bind_some, Token.extend?, hc, if_true]
    rw [ih fun d hd => hcs d (List.mem_cons_of_mem _ hd)]
    simp

/-- Neither words nor numbers have a blank in them. -/
theorem not_isWhitespace_of_continuesWord {c : Char} (hc : continuesWord c = true) :
    c.isWhitespace = false := by
  by_contra h
  simp only [Char.isWhitespace, Bool.not_eq_false, Bool.or_eq_true, decide_eq_true_eq] at h
  rcases h with ((rfl | rfl) | rfl) | rfl <;> exact absurd hc (by decide)

theorem not_startsWord_of_isDigit {c : Char} (hc : c.isDigit = true) : startsWord c = false := by
  have hdigit : c.val ≤ 57 := of_decide_eq_true (Bool.and_elim_right hc)
  by_contra h
  rw [Bool.not_eq_false, startsWord, Bool.or_eq_true, decide_eq_true_eq] at h
  -- Letters of both cases and the underscore lie behind the digits.
  rcases h with hletter | rfl
  · rcases Bool.or_eq_true_iff.1 hletter with hupper | hlower
    · have hlow : 65 ≤ c.val := (of_decide_eq_true hupper).1
      exact absurd (UInt32.le_trans hlow hdigit) (by decide)
    · have hlow : 97 ≤ c.val := of_decide_eq_true (Bool.and_elim_left hlower)
      exact absurd (UInt32.le_trans hlow hdigit) (by decide)
  · exact absurd hc (by decide)

/-! ## Tokens -/

theorem slash_not_mem_of_isWord {w : List Char} (hw : isWord w = true) : '/' ∉ w := by
  cases w with
  | nil => simp
  | cons c rest =>
    simp only [isWord, Bool.and_eq_true, List.all_eq_true] at hw
    intro h
    rcases List.mem_cons.1 h with rfl | h
    · exact absurd hw.1 (by decide)
    · exact absurd (hw.2 _ h) (by decide)

theorem slash_not_mem_of_isNumber {ds : List Char} (hds : IsNumber ds) : '/' ∉ ds := by
  intro h
  rcases hds.all _ h with h | h <;> exact absurd h (by decide)

theorem lex_word {w rest : List Char} (hw : isWord w = true)
    (hrest : ∀ c, rest.head? = some c → continuesWord c = false ∧ c ≠ '/') :
    lex (w ++ rest) = .word w :: lex rest := by
  rw [lex, withoutComments_append (slash_not_mem_of_isWord hw)]
  cases w with
  | nil => exact absurd hw (by decide)
  | cons c cs =>
    simp only [isWord, Bool.and_eq_true] at hw
    have hstart : Token.start c = .word [c] := by simp [Token.start, hw.1]
    have hblank : c.isWhitespace = false :=
      not_isWhitespace_of_continuesWord (by simp [continuesWord, hw.1])
    rw [List.cons_append, scan]
    simp only [Option.bind_none, Option.toList_none, List.nil_append, hblank, Bool.false_eq_true,
      if_false, hstart]
    rw [scan_word_append hw.2, scan_stop]
    · rfl
    · intro d hd
      rw [head?_withoutComments fun d hd => (hrest d hd).2] at hd
      simp [Token.extend?, (hrest d hd).1]

theorem lex_number {ds rest : List Char} (hds : IsNumber ds)
    (hrest : ∀ c, rest.head? = some c → c.isDigit = false ∧ c ≠ '.' ∧ c ≠ '/') :
    lex (ds ++ rest) = .number ds :: lex rest := by
  rw [lex, withoutComments_append (slash_not_mem_of_isNumber hds)]
  obtain ⟨c, cs, rfl, hc⟩ := hds.head
  have hstart : Token.start c = .number [c] := by
    simp [Token.start, hc, not_startsWord_of_isDigit hc]
  have hblank : c.isWhitespace = false :=
    not_isWhitespace_of_continuesWord (by simp [continuesWord, hc])
  rw [List.cons_append, scan]
  simp only [Option.bind_none, Option.toList_none, List.nil_append, hblank, Bool.false_eq_true,
    if_false, hstart]
  rw [scan_number_append fun d hd => hds.all d (List.mem_cons_of_mem _ hd), scan_stop]
  · rfl
  · intro d hd
    rw [head?_withoutComments fun d hd => (hrest d hd).2.2] at hd
    simp [Token.extend?, (hrest d hd).1, (hrest d hd).2.1]

theorem lex_blank {c : Char} (hc : c = ' ' ∨ c = '\n') (rest : List Char) :
    lex (c :: rest) = lex rest := by
  rcases hc with rfl | rfl <;> rw [lex, withoutComments_cons (by decide), scan] <;> rfl

/-- The symbols of one character that start no longer symbol. -/
def lone : List Char := ['(', ')', '[', ']', '{', '}', ',', ';', '.', '?', ':']

theorem lex_lone {c : Char} (hc : c ∈ lone) (rest : List Char) :
    lex (c :: rest) = .symbol [c] :: lex rest := by
  have hslash : c ≠ '/' := by
    rintro rfl
    exact absurd hc (by decide)
  have hstart : c.isWhitespace = false ∧ Token.start c = .symbol [c] ∧
      ∀ d, (c, d) ∉ Token.pairs := by
    -- Each of these is checked on its own; none is the first half of a pair.
    simp only [lone, List.mem_cons, List.not_mem_nil, or_false] at hc
    rcases hc with rfl | rfl | rfl | rfl | rfl | rfl | rfl | rfl | rfl | rfl | rfl <;>
      refine ⟨by decide, by decide, by simp [Token.pairs]⟩
  rw [lex, withoutComments_cons hslash, scan]
  simp only [Option.bind_none, Option.toList_none, List.nil_append, hstart.1, Bool.false_eq_true,
    if_false, hstart.2.1]
  rw [scan_stop]
  · rfl
  · intro d _
    simp [Token.extend?, hstart.2.2 d]

/-- A sign in front of a number is a token of its own. -/
theorem lex_minus {c : Char} (hc : c.isDigit = true) (rest : List Char) :
    lex ('-' :: c :: rest) = .symbol ['-'] :: lex (c :: rest) := by
  have hslash : c ≠ '/' := by
    rintro rfl
    exact absurd hc (by decide)
  have hpair : ('-', c) ∉ Token.pairs := by
    simp only [Token.pairs, List.mem_append, List.mem_map]
    rintro (⟨d, -, heq⟩ | ⟨d, hd, heq⟩)
    · rw [← (Prod.mk.inj heq).2] at hc
      exact absurd hc (by decide)
    · rw [← (Prod.mk.inj heq).2, (Prod.mk.inj heq).1] at hc
      exact absurd hc (by decide)
  rw [lex, withoutComments_cons (by decide), withoutComments_cons hslash, scan]
  simp only [Option.bind_none, Option.toList_none, List.nil_append]
  rw [lex, withoutComments_cons hslash]
  refine scan_stop fun d hd => ?_
  cases hd
  exact if_neg hpair

theorem lex_arith (operator : Arith) (rest : List Char) :
    lex (operator.text.toList ++ ' ' :: rest) = operator.token :: lex (' ' :: rest) := by
  cases operator <;> rfl

theorem lex_comparison (operator : Comparison) (rest : List Char) :
    lex (operator.text.toList ++ ' ' :: rest) = operator.token :: lex (' ' :: rest) := by
  cases operator <;> rfl

theorem lex_and (rest : List Char) :
    lex (" && ".toList ++ rest) = .symbol ['&', '&'] :: lex rest := rfl

theorem lex_or (rest : List Char) :
    lex (" || ".toList ++ rest) = .symbol ['|', '|'] :: lex rest := rfl

theorem lex_comma (rest : List Char) : lex (", ".toList ++ rest) = .symbol [','] :: lex rest := rfl

/-! ## Expressions -/

/-- The characters behind which every word and number ends. -/
def delimiters : List Char := [' ', '\n', '(', ')', '[', ']', ',', ';']

/-- Text that ends or goes on with a delimiter. -/
def Delimited (text : List Char) : Prop := ∀ c, text.head? = some c → c ∈ delimiters

theorem delimited_cons {c : Char} (hc : c ∈ delimiters) (rest : List Char) :
    Delimited (c :: rest) := by
  intro d hd
  cases hd
  exact hc

namespace Delimited

variable {rest : List Char}

theorem ends_word (h : Delimited rest) (c : Char) (hc : rest.head? = some c) :
    continuesWord c = false ∧ c ≠ '/' := by
  have hall : delimiters.Forall fun c => continuesWord c = false ∧ c ≠ '/' := by decide
  exact List.forall_iff_forall_mem.1 hall c (h c hc)

theorem ends_number (h : Delimited rest) (c : Char) (hc : rest.head? = some c) :
    c.isDigit = false ∧ c ≠ '.' ∧ c ≠ '/' := by
  have hall : delimiters.Forall fun c => c.isDigit = false ∧ c ≠ '.' ∧ c ≠ '/' := by decide
  exact List.forall_iff_forall_mem.1 hall c (h c hc)

end Delimited

/-- Items with a separator between them are cut item by item. -/
theorem lex_intercalate {α : Type} {chars : α → List Char} {toks : α → List Token}
    {separator : List Char} {token : Token} {items : List α}
    (hitems : ∀ x ∈ items, ∀ rest, Delimited rest → lex (chars x ++ rest) = toks x ++ lex rest)
    (hdelimited : ∀ rest, Delimited (separator ++ rest))
    (hseparator : ∀ rest, lex (separator ++ rest) = token :: lex rest) {rest : List Char}
    (hrest : Delimited rest) :
    lex (separator.intercalate (items.map chars) ++ rest) =
      [token].intercalate (items.map toks) ++ lex rest := by
  induction items with
  | nil => rfl
  | cons x items ih =>
    have hx := hitems x List.mem_cons_self
    cases items with
    | nil => simpa using hx rest hrest
    | cons y items =>
      have hrec := ih fun z hz => hitems z (List.mem_cons_of_mem _ hz)
      simp only [List.map_cons, List.intercalate_cons_cons, List.append_assoc] at hrec ⊢
      rw [hx _ (hdelimited _), hseparator, hrec]
      simp

/-- Two operands with an operator between them, set off by blanks. -/
theorem lex_operation {left operator right rest : List Char} {token : Token} {ls rs : List Token}
    (hleft : ∀ rest, Delimited rest → lex (left ++ rest) = ls ++ lex rest)
    (hoperator : ∀ rest, lex (operator ++ ' ' :: rest) = token :: lex (' ' :: rest))
    (hright : lex (right ++ rest) = rs ++ lex rest) :
    lex (left ++ ' ' :: (operator ++ ' ' :: (right ++ rest))) =
      ls ++ token :: (rs ++ lex rest) := by
  rw [hleft _ (delimited_cons (by decide) _), lex_blank (Or.inl rfl), hoperator,
    lex_blank (Or.inl rfl), hright]

theorem lex_numeral {text rest : List Char} (htext : IsSigned text) (hrest : Delimited rest) :
    lex (text ++ rest) = numeralTokens text ++ lex rest := by
  cases htext with
  | plain hdigits =>
    rw [lex_number hdigits hrest.ends_number]
    obtain ⟨c, cs, rfl, hc⟩ := hdigits.head
    -- The text starts with a digit, so it is not taken for a negative one.
    have hminus : c ≠ '-' := by
      rintro rfl
      exact absurd hc (by decide)
    simp [numeralTokens, hminus]
  | minus hdigits =>
    have hdigits' := lex_number hdigits hrest.ends_number
    obtain ⟨c, cs, rfl, hc⟩ := hdigits.head
    rw [List.cons_append] at hdigits'
    rw [List.cons_append, List.cons_append, lex_minus hc, hdigits']
    rfl

namespace Expr

/-- The text of an expression is cut into its tokens. -/
theorem Fits.lex_text {level : Level} {e : Expr} (h : e.Fits level) :
    ∀ rest, Delimited rest → lex (e.text.toList ++ rest) = e.tokens ++ lex rest := by
  -- What follows an operand is always a delimiter, so the operands never run into it.
  induction h with
  | name word =>
    intro rest hrest
    exact lex_word word hrest.ends_word
  | numeral signed =>
    intro rest hrest
    exact lex_numeral signed hrest
  | @component _ identifier selector word selectorWord =>
    intro rest hrest
    simp only [text, tokens, String.toList_append, List.append_assoc]
    rw [lex_word word (by simp; decide)]
    change _ :: lex ('.' :: (selector.toList ++ rest)) = _
    rw [lex_lone (by decide), lex_word selectorWord hrest.ends_word]
    rfl
  | @element _ identifier position word =>
    intro rest hrest
    have hdigits := (isDigits_toDigits position).isNumber Nat.toDigits_ne_nil
    simp only [text, tokens, String.toList_append, Nat.toList_repr, List.append_assoc]
    rw [lex_word word (by simp; decide)]
    change _ :: lex ('[' :: (Nat.toDigits 10 position ++ ']' :: rest)) = _
    rw [lex_lone (by decide), lex_number hdigits (by simp), lex_lone (by decide)]
    rfl
  | @call _ function arguments word _ ih =>
    intro rest hrest
    simp only [text, tokens, texts_eq_map, tokenLists_eq_map, String.toList_append,
      String.toList_intercalate, List.map_map, List.append_assoc]
    rw [lex_word word (by simp; decide)]
    change _ :: lex ('(' :: (List.intercalate _ _ ++ ')' :: rest)) = _
    have hlist : lex (", ".toList.intercalate (arguments.map (String.toList ∘ text)) ++
        ')' :: rest) = [.symbol [',']].intercalate (arguments.map tokens) ++ lex (')' :: rest) :=
      lex_intercalate ih (fun _ => delimited_cons (by decide) _) lex_comma
        (delimited_cons (by decide) _)
    rw [lex_lone (by decide), hlist, lex_lone (by decide)]
    simp
  | @paren _ inner _ ih =>
    intro rest hrest
    simp only [text, tokens, String.toList_append, List.append_assoc]
    change lex ('(' :: (inner.text.toList ++ ')' :: rest)) = _
    rw [lex_lone (by decide), ih _ (delimited_cons (by decide) _), lex_lone (by decide)]
    simp
  | @arith _ operator left right _ _ _ ihLeft ihRight =>
    intro rest hrest
    simpa [text, tokens] using lex_operation ihLeft (lex_arith operator) (ihRight rest hrest)
  | @compare _ operator left right _ _ _ ihLeft ihRight =>
    intro rest hrest
    simpa [text, tokens] using lex_operation ihLeft (lex_comparison operator) (ihRight rest hrest)
  | all _ _ _ ih =>
    intro rest hrest
    simp only [text, tokens, texts_eq_map, tokenLists_eq_map, String.toList_intercalate,
      List.map_map]
    exact lex_intercalate ih (fun _ => delimited_cons (by decide) _) lex_and hrest
  | any _ _ _ ih =>
    intro rest hrest
    simp only [text, tokens, texts_eq_map, tokenLists_eq_map, String.toList_intercalate,
      List.map_map]
    exact lex_intercalate ih (fun _ => delimited_cons (by decide) _) lex_or hrest
  | @choice condition yes no _ _ _ ihCondition ihYes ihNo =>
    intro rest hrest
    simp only [text, tokens, String.toList_append, List.append_assoc]
    change lex (condition.text.toList ++ ' ' :: '?' :: ' ' :: (yes.text.toList ++ ' ' :: ':' ::
      ' ' :: (no.text.toList ++ rest))) = _
    rw [ihCondition _ (delimited_cons (by decide) _), lex_blank (Or.inl rfl),
      lex_lone (by decide), lex_blank (Or.inl rfl), ihYes _ (delimited_cons (by decide) _),
      lex_blank (Or.inl rfl), lex_lone (by decide), lex_blank (Or.inl rfl), ihNo _ hrest]
    simp

end Expr

/-! ## Lines -/

/-- Text that is cut into the given tokens whatever follows it. -/
def Closed (text : List Char) (toks : List Token) : Prop :=
  ∀ rest, lex (text ++ rest) = toks ++ lex rest

theorem Closed.append {a b : List Char} {s t : List Token} (ha : Closed a s) (hb : Closed b t) :
    Closed (a ++ b) (s ++ t) := by
  intro rest
  rw [List.append_assoc, ha, hb, List.append_assoc]

theorem closed_newline : Closed ['\n'] [] := fun _ => lex_blank (Or.inr rfl) _

/-- Lines that are cut into the given tokens one by one. -/
inductive CutLines : List String → List Token → Prop
  | nil : CutLines [] []
  | cons {line : String} {lines : List String} {t ts : List Token} (head : Closed line.toList t)
    (tail : CutLines lines ts) : CutLines (line :: lines) (t ++ ts)

namespace CutLines

variable {a b : List String} {s t : List Token}

theorem append (ha : CutLines a s) (hb : CutLines b t) : CutLines (a ++ b) (s ++ t) := by
  induction ha with
  | nil => exact hb
  | cons head _ ih =>
    rw [List.append_assoc]
    exact .cons head ih

theorem single {line : String} (h : Closed line.toList t) : CutLines [line] t := by
  simpa using CutLines.cons h .nil

theorem blank : CutLines [""] [] := single fun _ => rfl

theorem flatMap {α : Type} {f : α → List String} {g : α → List Token} {xs : List α}
    (h : ∀ x ∈ xs, CutLines (f x) (g x)) : CutLines (xs.flatMap f) (xs.flatMap g) := by
  induction xs with
  | nil => exact .nil
  | cons x xs ih =>
    simp only [List.flatMap_cons]
    exact (h x List.mem_cons_self).append (ih fun y hy => h y (List.mem_cons_of_mem _ hy))

/-- Lines joined by line breaks. -/
theorem closed (h : CutLines a s) : Closed ("\n".intercalate a).toList s := by
  induction h with
  | nil => exact fun _ => rfl
  | @cons line lines t ts head tail ih =>
    cases tail with
    | nil => simpa using head
    | cons head' tail' =>
      simp only [String.toList_intercalate, List.map_cons, List.intercalate_cons_cons] at ih ⊢
      simpa using (head.append closed_newline).append ih

end CutLines

/-! ## Statements -/

theorem lex_type (type : Ty) (rest : List Char) :
    lex (type.text.toList ++ ' ' :: rest) = .word type.text.toList :: lex rest := by
  have hword : isWord type.text.toList = true := by cases type <;> decide
  rw [lex_word hword (delimited_cons (by decide) _).ends_word, lex_blank (Or.inl rfl)]

theorem lex_return (rest : List Char) :
    lex ("return ".toList ++ rest) = .word "return".toList :: lex rest := rfl

theorem lex_indent (rest : List Char) : lex ("  ".toList ++ rest) = lex rest := rfl

theorem lex_equals {name : List Char} (hname : isWord name = true) (rest : List Char) :
    lex (name ++ (" = ".toList ++ rest)) = .word name :: .symbol ['='] :: lex rest :=
  lex_word hname (delimited_cons (by decide) (' ' :: rest)).ends_word

theorem lex_plusEquals {name : List Char} (hname : isWord name = true) (rest : List Char) :
    lex (name ++ (" += ".toList ++ rest)) = .word name :: .symbol ['+', '='] :: lex rest :=
  lex_word hname (delimited_cons (by decide) (' ' :: rest)).ends_word

/-- An expression whose text is cut into its tokens in front of a semicolon. -/
def Expr.CutAtSemicolon (e : Expr) : Prop :=
  ∀ rest, lex (e.text.toList ++ ';' :: rest) = e.tokens ++ .symbol [';'] :: lex rest

theorem Expr.Fits.cutAtSemicolon {e : Expr} (h : e.Fits .choice) : e.CutAtSemicolon := by
  intro rest
  rw [h.lex_text _ (delimited_cons (by decide) _), lex_lone (by decide)]

theorem closed_return {value : Expr} (h : value.CutAtSemicolon) :
    Closed ("    return " ++ value.text ++ ";").toList
      (.word "return".toList :: value.tokens ++ [.symbol [';']]) := by
  intro rest
  have htext : ("    return " ++ value.text ++ ";").toList ++ rest =
      "  ".toList ++ ("  ".toList ++ ("return ".toList ++ (value.text.toList ++ ';' :: rest))) := by
    simp
  rw [htext, lex_indent, lex_indent, lex_return, h]
  simp

namespace Arm

/-- The tokens of an arm up to the brace that closes it. -/
def openTokens (arm : Arm) : List Token :=
  .symbol ['('] :: arm.guard.tokens ++ .symbol [')'] :: .symbol ['{'] :: .word "return".toList ::
    arm.result.tokens ++ [.symbol [';']]

theorem tokens_eq (arm : Arm) : arm.tokens = arm.openTokens ++ [.symbol ['}']] := by
  simp [tokens, openTokens, blockTokens]

theorem cutLines_lines {arm : Arm} (hguard : arm.guard.Fits .choice)
    (hresult : arm.result.CutAtSemicolon) {opening : String} {toks : List Token}
    (hopening : ∀ rest, lex (("  " ++ opening).toList ++ '(' :: rest) = toks ++ lex ('(' :: rest)) :
    CutLines (arm.lines opening) (toks ++ arm.openTokens) := by
  have hline : Closed ("  " ++ opening ++ "(" ++ arm.guard.text ++ ") \x7b").toList
      (toks ++ .symbol ['('] :: arm.guard.tokens ++ [.symbol [')'], .symbol ['{']]) := by
    intro rest
    have htext : ("  " ++ opening ++ "(" ++ arm.guard.text ++ ") \x7b").toList ++ rest =
        ("  " ++ opening).toList ++ '(' ::
          (arm.guard.text.toList ++ ')' :: ' ' :: '{' :: rest) := by
      simp
    rw [htext, hopening, lex_lone (by decide), hguard.lex_text _ (delimited_cons (by decide) _),
      lex_lone (by decide), lex_blank (Or.inl rfl), lex_lone (by decide)]
    simp
  have hlines := CutLines.cons hline (.single (closed_return hresult))
  simpa [lines, openTokens] using hlines

end Arm

namespace Stmt

theorem lex_if (wanted : Bool) (rest : List Char) :
    lex (("  " ++ ("if" ++ gap wanted)).toList ++ '(' :: rest) =
      [.word "if".toList] ++ lex ('(' :: rest) := by
  cases wanted <;> rfl

theorem lex_elseIf (wanted : Bool) (rest : List Char) :
    lex (("  " ++ ("\x7d else " ++ ("if" ++ gap wanted))).toList ++ '(' :: rest) =
      [.symbol ['}'], .word "else".toList, .word "if".toList] ++ lex ('(' :: rest) := by
  cases wanted <;> rfl

theorem cutLines_fallbackLines {fallback : Option Expr}
    (h : ∀ value ∈ fallback, value.Fits .choice) :
    CutLines (fallbackLines fallback ++ ["  \x7d"]) (.symbol ['}'] :: fallbackTokens fallback) := by
  have hclosing : Closed "  \x7d".toList [.symbol ['}']] := by
    intro rest
    change lex ("  ".toList ++ '}' :: rest) = _
    rw [lex_indent, lex_lone (by decide)]
    rfl
  cases fallback with
  | none => exact .single hclosing
  | some value =>
    have helse : Closed "  \x7d else \x7b".toList
        [.symbol ['}'], .word "else".toList, .symbol ['{']] := by
      intro rest
      change .symbol ['}'] :: .word "else".toList :: lex ('{' :: rest) = _
      rw [lex_lone (by decide)]
      rfl
    have hlines := CutLines.cons helse
      (.cons (closed_return (h value rfl).cutAtSemicolon) (.single hclosing))
    simpa [fallbackLines, fallbackTokens, blockTokens] using hlines

/-- Braces that open items and one that closes the last are braces that close items. -/
theorem flatMap_cons_append_singleton {α β : Type} (b : β) (f : α → List β) (xs : List α) :
    xs.flatMap (fun x => b :: f x) ++ [b] = b :: xs.flatMap (fun x => f x ++ [b]) := by
  induction xs with
  | nil => rfl
  | cons x xs ih => simp [ih]

/-- A chain of arms is cut arm by arm. -/
theorem cutLines_giveFirst {first : Arm} {others : List Arm} {fallback : Option Expr}
    (hguards : ∀ arm ∈ first :: others, arm.guard.Fits .choice)
    (hresults : ∀ arm ∈ first :: others, arm.result.CutAtSemicolon)
    (hfallback : ∀ value ∈ fallback, value.Fits .choice) (layout : Layout) :
    CutLines ((giveFirst first others fallback).lines layout)
      (giveFirst first others fallback).tokens := by
  have hfirst := Arm.cutLines_lines (hguards first List.mem_cons_self)
    (hresults first List.mem_cons_self) (lex_if layout.afterIf)
  have hothers := CutLines.flatMap fun arm harm =>
    Arm.cutLines_lines (hguards arm (List.mem_cons_of_mem first harm))
      (hresults arm (List.mem_cons_of_mem first harm)) (lex_elseIf layout.afterIf)
  have hchain := (hfirst.append hothers).append (cutLines_fallbackLines hfallback)
  -- The lines begin with the brace that closes the arm before; the tokens end with their own.
  have hrotate := flatMap_cons_append_singleton (Token.symbol ['}'])
    (fun arm : Arm => .word "else".toList :: .word "if".toList :: arm.openTokens) others
  have htokens : (giveFirst first others fallback).tokens =
      [.word "if".toList] ++ first.openTokens ++
        others.flatMap (fun arm => [.symbol ['}'], .word "else".toList, .word "if".toList] ++
          arm.openTokens) ++ .symbol ['}'] :: fallbackTokens fallback := by
    rw [List.append_cons, List.append_assoc _ _ [_]]
    simp only [List.cons_append, List.nil_append, hrotate]
    simp [tokens, Arm.tokens_eq]
  rw [htokens]
  simpa [lines] using hchain

theorem cutLines_lines {s : Stmt} (h : s.Legible) (layout : Layout) :
    CutLines (s.lines layout) s.tokens := by
  cases s with
  | declare type name value =>
    refine .single fun rest => ?_
    have htext : ("  " ++ type.text ++ " " ++ name ++ " = " ++ value.text ++
        gap layout.afterDeclaration ++ ";").toList ++ rest =
        "  ".toList ++ (type.text.toList ++ ' ' :: (name.toList ++ (" = ".toList ++
          (value.text.toList ++ ((gap layout.afterDeclaration).toList ++ ';' :: rest))))) := by
      simp
    -- With or without the gap, the value ends here.
    have hgap : Delimited ((gap layout.afterDeclaration).toList ++ ';' :: rest) ∧
        lex ((gap layout.afterDeclaration).toList ++ ';' :: rest) = lex (';' :: rest) := by
      cases layout.afterDeclaration <;> exact ⟨delimited_cons (by decide) _, rfl⟩
    rw [htext, lex_indent, lex_type, lex_equals h.1, h.2.lex_text _ hgap.1, hgap.2,
      lex_lone (by decide)]
    simp [tokens]
  | assign name value =>
    refine .single fun rest => ?_
    have htext : ("  " ++ name ++ " = " ++ value.text ++ ";").toList ++ rest =
        "  ".toList ++ (name.toList ++ (" = ".toList ++ (value.text.toList ++ ';' :: rest))) := by
      simp
    rw [htext, lex_indent, lex_equals h.1, h.2.2.lex_text _ (delimited_cons (by decide) _),
      lex_lone (by decide)]
    simp [tokens]
  | increase name value =>
    refine .single fun rest => ?_
    have htext : ("  " ++ name ++ " += " ++ value.text ++ ";").toList ++ rest =
        "  ".toList ++ (name.toList ++ (" += ".toList ++ (value.text.toList ++ ';' :: rest))) := by
      simp
    rw [htext, lex_indent, lex_plusEquals h.1, h.2.2.lex_text _ (delimited_cons (by decide) _),
      lex_lone (by decide)]
    simp [tokens]
  | give value =>
    refine .single fun rest => ?_
    have htext : ("  return " ++ value.text ++ ";").toList ++ rest =
        "  ".toList ++ ("return ".toList ++ (value.text.toList ++ ';' :: rest)) := by
      simp
    rw [htext, lex_indent, lex_return, Expr.Fits.lex_text h _ (delimited_cons (by decide) _),
      lex_lone (by decide)]
    simp [tokens]
  | giveFirst first others fallback =>
    obtain ⟨hfirst, hothers, hfallback⟩ := h
    have harms : ∀ arm ∈ first :: others, arm.Legible := List.forall_mem_cons.2 ⟨hfirst, hothers⟩
    exact cutLines_giveFirst (fun arm harm => (harms arm harm).1)
      (fun arm harm => (harms arm harm).2.cutAtSemicolon) hfallback layout

end Stmt

/-! ## Routines -/

namespace Param

theorem lex_text {p : Param} (h : isWord p.name.toList = true) (rest : List Char)
    (hrest : Delimited rest) : lex (p.text.toList ++ rest) = p.tokens ++ lex rest := by
  have hplain (rest : List Char) (hrest : Delimited rest) :
      lex (p.type.text.toList ++ ' ' :: (p.name.toList ++ rest)) =
        .word p.type.text.toList :: .word p.name.toList :: lex rest := by
    rw [lex_type, lex_word h hrest.ends_word]
  have hconst (rest : List Char) : lex ("const in ".toList ++ rest) =
      .word "const".toList :: .word "in".toList :: lex rest := rfl
  simp only [text, tokens]
  split
  · simp only [String.toList_append, List.append_assoc]
    rw [hconst]
    exact congrArg _ (congrArg _ (hplain rest hrest))
  · simp only [String.toList_append, List.append_assoc]
    exact hplain rest hrest

end Param

namespace Routine

variable {r : Routine}

theorem closed_signature (hname : isWord r.name.toList = true)
    (hparams : ∀ p ∈ r.params, isWord p.name.toList = true) (layout : Layout) :
    Closed (r.signature layout ++ " \x7b").toList
      (.word r.result.text.toList :: .word r.name.toList :: .symbol ['('] ::
        [.symbol [',']].intercalate (r.params.map Param.tokens) ++
        [.symbol [')'], .symbol ['{']]) := by
  intro rest
  have htext : (r.signature layout ++ " \x7b").toList ++ rest =
      r.result.text.toList ++ ' ' :: (r.name.toList ++ ((gap layout.afterName).toList ++ '(' ::
        (", ".toList.intercalate (r.params.map (String.toList ∘ Param.text)) ++
          ')' :: ' ' :: '{' :: rest))) := by
    simp [signature]
  have hgap (rest : List Char) : Delimited ((gap layout.afterName).toList ++ '(' :: rest) ∧
      lex ((gap layout.afterName).toList ++ '(' :: rest) = lex ('(' :: rest) := by
    cases layout.afterName <;> exact ⟨delimited_cons (by decide) _, rfl⟩
  have hlist (rest : List Char) :
      lex (", ".toList.intercalate (r.params.map (String.toList ∘ Param.text)) ++ ')' :: rest) =
        [.symbol [',']].intercalate (r.params.map Param.tokens) ++ lex (')' :: rest) :=
    lex_intercalate (fun p hp => Param.lex_text (hparams p hp))
      (fun _ => delimited_cons (by decide) _) lex_comma (delimited_cons (by decide) _)
  rw [htext, lex_type, lex_word hname (hgap _).1.ends_word, (hgap _).2, lex_lone (by decide),
    hlist, lex_lone (by decide), lex_blank (Or.inl rfl), lex_lone (by decide)]
  simp

theorem cutLines_bodyLines {paragraphs : List (List Stmt)}
    (h : ∀ p ∈ paragraphs, ∀ s ∈ p, Stmt.Legible s) (layout : Layout) :
    CutLines ([""].intercalate (paragraphs.map (·.flatMap (Stmt.lines layout))))
      (paragraphs.flatMap (·.flatMap Stmt.tokens)) := by
  induction paragraphs with
  | nil => exact .nil
  | cons p ps ih =>
    have hp : CutLines (p.flatMap (Stmt.lines layout)) (p.flatMap Stmt.tokens) :=
      .flatMap fun s hs => Stmt.cutLines_lines (h p List.mem_cons_self s hs) layout
    have hps := ih fun q hq => h q (List.mem_cons_of_mem _ hq)
    cases ps with
    | nil => simpa using hp
    | cons q qs =>
      rw [List.map_cons, List.map_cons, List.intercalate_cons_cons, List.flatMap_cons]
      rw [List.map_cons] at hps
      -- The empty line between two paragraphs leaves no token.
      simpa using (hp.append .blank).append hps

/-- The text of a routine is cut into its tokens once its lines are. -/
theorem closed_text_of_lines (hname : isWord r.name.toList = true)
    (hparams : ∀ p ∈ r.params, isWord p.name.toList = true) {layout : Layout}
    (hbody : CutLines (r.bodyLines layout) (r.body.flatMap Stmt.tokens)) :
    Closed (r.text layout).toList r.tokens := by
  have hclosing : Closed "\x7d".toList [.symbol ['}']] := fun rest => lex_lone (by decide) rest
  have hlines := (CutLines.cons (closed_signature hname hparams layout) hbody).append
    (.single hclosing)
  simpa [text, tokens] using hlines.closed

/-- The text of a legible routine is cut into its tokens, whatever its layout. -/
theorem closed_text (h : r.Legible) (layout : Layout) :
    Closed (r.text layout).toList r.tokens := by
  refine closed_text_of_lines h.name h.params ?_
  rw [body, List.flatten_eq_flatMap, List.flatMap_assoc]
  exact cutLines_bodyLines
    (fun p hp s hs => h.body s (List.mem_flatten.2 ⟨p, hp, hs⟩)) layout

end Routine

end Glsl

end CellularShader
