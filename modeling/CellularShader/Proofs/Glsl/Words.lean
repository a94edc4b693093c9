/- # Where phrases occur in shader text

A phrase is a few words that code is searched for, such as a type with the name that it declares or
a name with the parenthesis of its call. Operators, commas and brackets interrupt every phrase, so
that a phrase occurs in the text of a routine only where it occurs in one of the stretches between
them, which are the words of the routine.
-/

import CellularShader.Proofs.Glsl.Grammar
import CellularShader.Proofs.Text.Occurrence

namespace CellularShader

namespace Glsl

open Text

/-- Letters with blanks between them and possibly a parenthesis at the end. More than one word, or a
word and a parenthesis, so that no name is a phrase. -/
structure IsPhrase (p : List Char) : Prop where
  chars : ∀ c ∈ p, c.isAlpha = true ∨ c = ' ' ∨ c = '('
  head : p.head?.all Char.isAlpha = true
  last : p.getLast? ≠ some ' '
  paren : '(' ∉ p.dropLast
  compound : ' ' ∈ p ∨ '(' ∈ p
  behindReturn : Clear p "    return ".toList

instance : DecidablePred IsPhrase := fun p =>
  -- The characters of the phrase are checked, rather than all characters.
  have : Decidable (∀ c ∈ p, c.isAlpha = true ∨ c = ' ' ∨ c = '(') := List.decidableBAll _ p
  decidable_of_iff
    ((∀ c ∈ p, c.isAlpha = true ∨ c = ' ' ∨ c = '(') ∧ p.head?.all Char.isAlpha = true ∧
      p.getLast? ≠ some ' ' ∧ '(' ∉ p.dropLast ∧ (' ' ∈ p ∨ '(' ∈ p) ∧
      Clear p "    return ".toList) <| by
    constructor
    · rintro ⟨hchars, hhead, hlast, hparen, hcompound, hreturn⟩
      exact ⟨hchars, hhead, hlast, hparen, hcompound, hreturn⟩
    · rintro ⟨hchars, hhead, hlast, hparen, hcompound, hreturn⟩
      exact ⟨hchars, hhead, hlast, hparen, hcompound, hreturn⟩

/-- Symbols, with or without blanks around them. -/
def isSeparator (s : List Char) : Bool :=
  s.all (fun c => !c.isAlpha && c ≠ '(') && s.any (· ≠ ' ')

/-- Whether no phrase can occur in a text, because it has neither a blank nor a parenthesis. -/
def IsSolid (text : String) : Prop := ' ' ∉ text.toList ∧ '(' ∉ text.toList

instance : DecidablePred IsSolid := fun _ => inferInstanceAs (Decidable (_ ∧ _))

/-- Whether one of several words contains a phrase. -/
def Occurs (p : List Char) (words : List String) : Prop := ∃ w ∈ words, p <:+: w.toList

instance (p : List Char) (words : List String) : Decidable (Occurs p words) :=
  inferInstanceAs (Decidable (∃ w ∈ words, _))

namespace Occurs

variable {p : List Char} {words others : List String} {word : String}

theorem left (h : Occurs p words) (others : List String) : Occurs p (words ++ others) := by
  obtain ⟨w, hw, h⟩ := h
  exact ⟨w, List.mem_append_left others hw, h⟩

theorem right (words : List String) (h : Occurs p others) : Occurs p (words ++ others) := by
  obtain ⟨w, hw, h⟩ := h
  exact ⟨w, List.mem_append_right words hw, h⟩

theorem head (h : p <:+: word.toList) (others : List String) : Occurs p (word :: others) :=
  ⟨word, List.mem_cons_self, h⟩

theorem tail (word : String) (h : Occurs p others) : Occurs p (word :: others) :=
  h.right [word]

theorem flatMap {α : Type} {f : α → List String} {x : α} {xs : List α} (hx : x ∈ xs)
    (h : Occurs p (f x)) : Occurs p (xs.flatMap f) := by
  obtain ⟨w, hw, h⟩ := h
  exact ⟨w, List.mem_flatMap.2 ⟨x, hx, hw⟩, h⟩

end Occurs

namespace IsPhrase

variable {p a b : List Char} {left right separator : String}

theorem ne_nil (hp : IsPhrase p) : p ≠ [] := by
  rintro rfl
  simpa using hp.compound

theorem isAlpha_head (hp : IsPhrase p) {c : Char} (hc : p.head? = some c) : c.isAlpha = true := by
  have h := hp.head
  rwa [hc] at h

theorem separates (hp : IsPhrase p) {s : List Char} (hs : isSeparator s = true) :
    Separates s p := by
  simp only [isSeparator, Bool.and_eq_true, List.all_eq_true, List.any_eq_true, Bool.not_eq_true',
    decide_eq_true_eq] at hs
  obtain ⟨hsymbols, c, hc, hblank⟩ := hs
  refine separates_of_mem hc (fun hmem => ?_) fun d hd => ⟨fun hhead => ?_, fun hlast => ?_⟩
  · have := hp.chars c hmem
    simp_all
  · have := hp.isAlpha_head hhead
    simp_all
  · have := hp.chars d (List.mem_of_getLast? hlast)
    have := hp.last
    simp_all

/-- A phrase in text with a separator stands on one side of it. -/
theorem split (hp : IsPhrase p) (h : p <:+: (left ++ separator ++ right).toList)
    (hs : isSeparator separator.toList = true := by decide +kernel) :
    p <:+: left.toList ∨ p <:+: right.toList := by
  rw [String.toList_append, String.toList_append, List.append_assoc] at h
  exact hp.separates hs _ _ h

/-- A phrase starts behind everything but letters. -/
theorem behind (hp : IsPhrase p) (h : p <:+: (separator ++ right).toList)
    (hs : separator.toList.all (fun c => !c.isAlpha) = true := by decide +kernel) :
    p <:+: right.toList := by
  have hclear : Clear p separator.toList := by
    refine clear_of_head hp.ne_nil fun d hd hhead => ?_
    have hsymbol := List.all_eq_true.1 hs d hd
    rw [hp.isAlpha_head hhead] at hsymbol
    exact absurd hsymbol (by decide)
  rw [String.toList_append] at h
  exact hclear.infix_right h

theorem before (hp : IsPhrase p) (h : p <:+: (left ++ separator).toList)
    (hs : isSeparator separator.toList = true := by decide +kernel) : p <:+: left.toList := by
  rw [String.toList_append] at h
  exact (hp.separates hs).infix_left h

theorem split_operation (hp : IsPhrase p) (hs : isSeparator (" " ++ separator ++ " ").toList = true)
    (h : p <:+: (left ++ " " ++ separator ++ " " ++ right).toList) :
    p <:+: left.toList ∨ p <:+: right.toList := by
  have htext : left ++ " " ++ separator ++ " " ++ right =
      left ++ (" " ++ separator ++ " ") ++ right := by
    simp only [String.append_assoc]
  rw [htext] at h
  exact hp.split h hs

/-- A phrase in a list with separators stands in an item. -/
theorem exists_of_intercalate (hp : IsPhrase p) {texts : List String}
    (h : p <:+: (separator.intercalate texts).toList)
    (hs : isSeparator separator.toList = true := by decide +kernel) :
    ∃ t ∈ texts, p <:+: t.toList := by
  rw [String.toList_intercalate] at h
  obtain ⟨x, hx, h⟩ := (hp.separates hs).exists_of_intercalate hp.ne_nil h
  obtain ⟨t, ht, rfl⟩ := List.mem_map.1 hx
  exact ⟨t, ht, h⟩

/-- A phrase in text with an opening parenthesis ends there at the latest or stands behind it. -/
theorem split_paren (hp : IsPhrase p) (h : p <:+: (left ++ "(" ++ right).toList) :
    p <:+: (left ++ "(").toList ∨ p <:+: right.toList := by
  simp only [String.toList_append, String.reduceToList, List.append_assoc, List.cons_append,
    List.nil_append] at h ⊢
  exact infix_of_append_cons hp.paren h

theorem not_infix_symbols (hp : IsPhrase p)
    (hs : separator.toList.all (fun c => !c.isAlpha) = true := by decide +kernel) :
    ¬p <:+: separator.toList := by
  intro h
  rw [← String.append_empty (s := separator)] at h
  exact hp.ne_nil (List.infix_nil.1 (hp.behind h hs))

theorem not_infix_of_isSolid (hp : IsPhrase p) {text : String} (h : IsSolid text) :
    ¬p <:+: text.toList := by
  intro hoccurs
  rcases hp.compound with hmem | hmem
  · exact h.1 (hoccurs.subset hmem)
  · exact h.2 (hoccurs.subset hmem)

end IsPhrase

section Containment

variable {w left right separator : String}

theorem infix_append_of_left (h : w.toList <:+: left.toList) (right : String) :
    w.toList <:+: (left ++ right).toList := by
  rw [String.toList_append]
  exact h.trans (List.prefix_append _ _).isInfix

theorem infix_append_of_right (left : String) (h : w.toList <:+: right.toList) :
    w.toList <:+: (left ++ right).toList := by
  rw [String.toList_append]
  exact h.trans (List.suffix_append _ _).isInfix

theorem infix_intercalate_of_mem {text : String} {texts : List String} (ht : text ∈ texts)
    (h : w.toList <:+: text.toList) : w.toList <:+: (separator.intercalate texts).toList := by
  rw [String.toList_intercalate]
  exact h.trans (infix_intercalate (List.mem_map_of_mem ht))

end Containment

/-! ## Numbers -/

theorem isSolid_of_isSigned {text : String} (h : IsSigned text.toList) : IsSolid text := by
  have hnumber {digits : List Char} (h : IsNumber digits) : ' ' ∉ digits ∧ '(' ∉ digits := by
    constructor <;> exact fun hmem => absurd (h.all _ hmem) (by decide)
  rw [IsSolid]
  generalize text.toList = digits at h
  cases h with
  | plain h => exact hnumber h
  | minus h => simpa using hnumber h

theorem isSolid_repr (n : Nat) : IsSolid n.repr := by
  apply isSolid_of_isSigned
  rw [Nat.toList_repr]
  exact .plain ((isDigits_toDigits n).isNumber Nat.toDigits_ne_nil)

theorem isSolid_ofInt (n : Int) : IsSolid (Literal.ofInt n) :=
  isSolid_of_isSigned (Literal.isSigned_ofInt n)

/-- The literal of a number has no blank, not even if the number is not finite. -/
theorem isSolid_ofBinary {F : Format} (x : Binary F) : IsSolid (Literal.ofBinary x) := by
  by_cases hx : x.isFinite = true
  · exact isSolid_of_isSigned (Literal.isSigned_ofBinary hx)
  · simp only [Literal.ofBinary, hx, Bool.false_eq_true, if_false]
    split
    · decide
    · split <;> decide

/-! ## Expressions -/

namespace Expr

mutual

/-- The stretches of an expression's text that its symbols leave. A called function keeps its
parenthesis. -/
def words : Expr → List String
  | name identifier => [identifier]
  | numeral text => [text]
  | verbatim text => [text]
  | foreign tokens => [(foreign tokens).text]
  | component vector selector => vector.words ++ [selector]
  | element array _ => array.words
  | call function arguments => (function ++ "(") :: wordsOf arguments
  | paren inner => inner.words
  | arith _ left right => left.words ++ right.words
  | compare _ left right => left.words ++ right.words
  | all operands => wordsOf operands
  | any operands => wordsOf operands
  | choice condition yes no => condition.words ++ (yes.words ++ no.words)

/-- The words of several expressions. -/
def wordsOf : List Expr → List String
  | [] => []
  | e :: es => e.words ++ wordsOf es

end

attribute [simp] words wordsOf

theorem wordsOf_eq_flatMap (es : List Expr) : wordsOf es = es.flatMap words := by
  induction es with
  | nil => rfl
  | cons e es ih => rw [wordsOf, ih, List.flatMap_cons]

theorem isSeparator_arith (operator : Arith) :
    isSeparator (" " ++ operator.text ++ " ").toList = true := by
  cases operator <;> decide +kernel

theorem isSeparator_comparison (operator : Comparison) :
    isSeparator (" " ++ operator.text ++ " ").toList = true := by
  cases operator <;> decide +kernel

variable {p : List Char}

mutual

/-- A phrase in the text of an expression stands in one of its words. -/
theorem occurs_of_text (hp : IsPhrase p) :
    (e : Expr) → p <:+: e.text.toList → Occurs p e.words
  | .name _, h | .numeral _, h | .verbatim _, h | .foreign _, h => .head h []
  | .component vector selector, h => by
    rcases hp.split h with h | h
    · exact (occurs_of_text hp vector h).left _
    · exact .right _ (.head h [])
  | .element array position, h => by
    rcases hp.split (hp.before h) with h | h
    · exact occurs_of_text hp array h
    · exact absurd h (hp.not_infix_of_isSolid (isSolid_repr position))
  | .call function arguments, h => by
    rcases hp.split_paren (hp.before h) with h | h
    · exact .head h _
    · exact .tail _ (occurs_of_texts hp arguments (hp.exists_of_intercalate h))
  | .paren inner, h => occurs_of_text hp inner (hp.behind (hp.before h))
  | .arith operator left right, h => by
    rcases hp.split_operation (isSeparator_arith operator) h with h | h
    · exact (occurs_of_text hp left h).left _
    · exact .right _ (occurs_of_text hp right h)
  | .compare operator left right, h => by
    rcases hp.split_operation (isSeparator_comparison operator) h with h | h
    · exact (occurs_of_text hp left h).left _
    · exact .right _ (occurs_of_text hp right h)
  | .all operands, h | .any operands, h =>
    occurs_of_texts hp operands (hp.exists_of_intercalate h)
  | .choice condition yes no, h => by
    rcases hp.split h with h | h
    · rcases hp.split h with h | h
      · exact (occurs_of_text hp condition h).left _
      · exact .right _ ((occurs_of_text hp yes h).left _)
    · exact .right _ (.right _ (occurs_of_text hp no h))

theorem occurs_of_texts (hp : IsPhrase p) :
    (es : List Expr) → (∃ t ∈ texts es, p <:+: t.toList) → Occurs p (wordsOf es)
  | [], h => by simp [texts] at h
  | e :: es, h => by
    rw [texts, List.exists_mem_cons_iff] at h
    rcases h with h | h
    · exact (occurs_of_text hp e h).left _
    · exact .right _ (occurs_of_texts hp es h)

end

mutual

/-- Every word of an expression stands in its text. -/
theorem infix_of_mem_words : (e : Expr) → ∀ w ∈ e.words, w.toList <:+: e.text.toList
  | .name _, w, h | .numeral _, w, h | .verbatim _, w, h | .foreign _, w, h => by
    obtain rfl := List.mem_singleton.1 h
    exact List.infix_rfl
  | .component vector selector, w, h => by
    rcases List.mem_append.1 h with h | h
    · exact infix_append_of_left (infix_append_of_left (infix_of_mem_words vector w h) _) _
    · rw [List.mem_singleton.1 h]
      exact infix_append_of_right _ List.infix_rfl
  | .element array position, w, h =>
    infix_append_of_left (infix_append_of_left
      (infix_append_of_left (infix_of_mem_words array w h) _) _) _
  | .call function arguments, w, h => by
    rcases List.mem_cons.1 h with rfl | h
    · exact infix_append_of_left (infix_append_of_left List.infix_rfl _) _
    · obtain ⟨t, ht, h⟩ := exists_infix_of_mem_wordsOf arguments w h
      exact infix_append_of_left (infix_append_of_right _ (infix_intercalate_of_mem ht h)) _
  | .paren inner, w, h =>
    infix_append_of_left (infix_append_of_right _ (infix_of_mem_words inner w h)) _
  | .arith _ left right, w, h | .compare _ left right, w, h => by
    rcases List.mem_append.1 h with h | h
    · exact infix_append_of_left (infix_append_of_left (infix_append_of_left
        (infix_append_of_left (infix_of_mem_words left w h) _) _) _) _
    · exact infix_append_of_right _ (infix_of_mem_words right w h)
  | .all operands, w, h | .any operands, w, h => by
    obtain ⟨t, ht, h⟩ := exists_infix_of_mem_wordsOf operands w h
    exact infix_intercalate_of_mem ht h
  | .choice condition yes no, w, h => by
    rcases List.mem_append.1 h with h | h
    · exact infix_append_of_left (infix_append_of_left (infix_append_of_left
        (infix_append_of_left (infix_of_mem_words condition w h) _) _) _) _
    · rcases List.mem_append.1 h with h | h
      · exact infix_append_of_left (infix_append_of_left
          (infix_append_of_right _ (infix_of_mem_words yes w h)) _) _
      · exact infix_append_of_right _ (infix_of_mem_words no w h)

theorem exists_infix_of_mem_wordsOf :
    (es : List Expr) → ∀ w ∈ wordsOf es, ∃ t ∈ texts es, w.toList <:+: t.toList
  | [], w, h => by cases h
  | e :: es, w, h => by
    rcases List.mem_append.1 h with h | h
    · exact ⟨e.text, List.mem_cons_self, infix_of_mem_words e w h⟩
    · obtain ⟨t, ht, h⟩ := exists_infix_of_mem_wordsOf es w h
      exact ⟨t, List.mem_cons_of_mem _ ht, h⟩

end

end Expr

/-! ## Statements -/

namespace IsPhrase

variable {p : List Char} {value : String}

/-- A phrase in a line that returns a value stands in the value. -/
theorem infix_of_return (hp : IsPhrase p) {keyword : String}
    (hkeyword : keyword.toList <:+ "    return ".toList)
    (h : p <:+: (keyword ++ value ++ ";").toList) : p <:+: value.toList := by
  have h := hp.before h
  rw [String.toList_append] at h
  exact (hp.behindReturn.of_suffix hkeyword).infix_right h

/-- A phrase in a line that gives a name a value stands on one side of the sign. -/
theorem split_assignment (hp : IsPhrase p) {name sign ending : String}
    (h : p <:+: ("  " ++ name ++ sign ++ value ++ ending).toList)
    (hending : isSeparator ending.toList = true := by decide +kernel)
    (hsign : isSeparator sign.toList = true := by decide +kernel) :
    p <:+: name.toList ∨ p <:+: value.toList := by
  rcases hp.split (hp.before h hending) hsign with h | h
  · exact .inl (hp.behind h)
  · exact .inr h

end IsPhrase

namespace Arm

/-- The words of an arm. -/
@[simp] def words (opening : String) (arm : Arm) : List String :=
  (opening ++ "(") :: (arm.guard.words ++ arm.result.words)

theorem occurs_of_lines {p : List Char} (hp : IsPhrase p) {arm : Arm} {opening line : String}
    (hline : line ∈ arm.lines opening) (h : p <:+: line.toList) : Occurs p (arm.words opening) := by
  rw [lines, List.mem_cons, List.mem_singleton] at hline
  rcases hline with rfl | rfl
  · rcases hp.split_paren (hp.before h) with h | h
    · rw [String.append_assoc] at h
      exact .head (hp.behind h) _
    · exact .tail _ ((Expr.occurs_of_text hp arm.guard h).left _)
  · have h := hp.infix_of_return List.suffix_rfl h
    exact .tail _ (.right _ (Expr.occurs_of_text hp arm.result h))

theorem exists_line_of_mem_words {arm : Arm} {opening w : String} (h : w ∈ arm.words opening) :
    ∃ line ∈ arm.lines opening, w.toList <:+: line.toList := by
  rw [words, List.mem_cons, List.mem_append] at h
  rcases h with rfl | h | h
  · refine ⟨_, List.mem_cons_self, infix_append_of_left (infix_append_of_left ?_ _) _⟩
    rw [String.append_assoc]
    exact infix_append_of_right _ List.infix_rfl
  · exact ⟨_, List.mem_cons_self, infix_append_of_left
      (infix_append_of_right _ (Expr.infix_of_mem_words _ w h)) _⟩
  · exact ⟨_, List.mem_cons_of_mem _ List.mem_cons_self, infix_append_of_left
      (infix_append_of_right _ (Expr.infix_of_mem_words _ w h)) _⟩

end Arm

namespace Stmt

/-- The words of a statement. A declared name keeps its type, and a guard its keyword. -/
def words (layout : Layout) : Stmt → List String
  | declare type name value => (type.text ++ " " ++ name) :: value.words
  | assign name value => name :: value.words
  | increase name value => name :: value.words
  | give value => value.words
  | giveFirst first others fallback =>
    let keyword := "if" ++ gap layout.afterIf
    first.words keyword ++ others.flatMap (Arm.words ("\x7d else " ++ keyword)) ++
      fallback.toList.flatMap Expr.words

section

variable (layout : Layout) (name : String) (value : Expr)

@[simp] theorem words_declare (type : Ty) :
    (declare type name value).words layout = (type.text ++ " " ++ name) :: value.words := rfl

@[simp] theorem words_assign : (assign name value).words layout = name :: value.words := rfl

@[simp] theorem words_increase : (increase name value).words layout = name :: value.words := rfl

@[simp] theorem words_give : (give value).words layout = value.words := rfl

@[simp] theorem words_giveFirst (first : Arm) (others : List Arm) (fallback : Option Expr) :
    (giveFirst first others fallback).words layout =
      first.words ("if" ++ gap layout.afterIf) ++
        others.flatMap (Arm.words ("\x7d else " ++ ("if" ++ gap layout.afterIf))) ++
        fallback.toList.flatMap Expr.words := rfl

end

theorem occurs_of_fallbackLines {p : List Char} (hp : IsPhrase p) {fallback : Option Expr}
    {line : String} (hline : line ∈ fallbackLines fallback) (h : p <:+: line.toList) :
    Occurs p (fallback.toList.flatMap Expr.words) := by
  cases fallback with
  | none => simp [fallbackLines] at hline
  | some value =>
    rw [fallbackLines, List.mem_cons, List.mem_singleton] at hline
    rcases hline with rfl | rfl
    · have htext : "  \x7d else \x7b" = "  \x7d " ++ ("else" ++ " \x7b") := by decide +kernel
      rw [htext] at h
      have h := hp.before (hp.behind h)
      exact absurd h (hp.not_infix_of_isSolid (by decide +kernel))
    · have h := hp.infix_of_return List.suffix_rfl h
      exact .flatMap (Option.mem_toList.2 rfl) (Expr.occurs_of_text hp value h)

theorem occurs_of_lines {p : List Char} (hp : IsPhrase p) {s : Stmt} {layout : Layout}
    {line : String} (hline : line ∈ s.lines layout) (h : p <:+: line.toList) :
    Occurs p (s.words layout) := by
  cases s with
  | declare type name value =>
    obtain rfl := List.mem_singleton.1 hline
    have htext : "  " ++ type.text ++ " " ++ name ++ " = " ++ value.text ++
        gap layout.afterDeclaration ++ ";" = "  " ++ (type.text ++ " " ++ name) ++ " = " ++
          value.text ++ (gap layout.afterDeclaration ++ ";") := by
      simp only [String.append_assoc]
    have hending : isSeparator (gap layout.afterDeclaration ++ ";").toList = true := by
      cases layout.afterDeclaration <;> decide +kernel
    rw [htext] at h
    rcases hp.split_assignment h hending with h | h
    · exact .head h _
    · exact .tail _ (Expr.occurs_of_text hp value h)
  | assign name value =>
    obtain rfl := List.mem_singleton.1 hline
    rcases hp.split_assignment h with h | h
    · exact .head h _
    · exact .tail _ (Expr.occurs_of_text hp value h)
  | increase name value =>
    obtain rfl := List.mem_singleton.1 hline
    rcases hp.split_assignment h with h | h
    · exact .head h _
    · exact .tail _ (Expr.occurs_of_text hp value h)
  | give value =>
    obtain rfl := List.mem_singleton.1 hline
    exact Expr.occurs_of_text hp value (hp.infix_of_return (by decide +kernel) h)
  | giveFirst first others fallback =>
    simp only [lines, List.mem_append, List.mem_flatMap, List.mem_singleton] at hline
    rcases hline with ((hline | ⟨arm, harm, hline⟩) | hline) | rfl
    · exact ((Arm.occurs_of_lines hp hline h).left _).left _
    · exact (Occurs.right _ (.flatMap harm (Arm.occurs_of_lines hp hline h))).left _
    · exact .right _ (occurs_of_fallbackLines hp hline h)
    · exact absurd h hp.not_infix_symbols

theorem exists_line_of_mem_words {s : Stmt} {layout : Layout} {w : String}
    (h : w ∈ s.words layout) : ∃ line ∈ s.lines layout, w.toList <:+: line.toList := by
  cases s with
  | declare type name value =>
    refine ⟨_, List.mem_singleton_self _, infix_append_of_left (infix_append_of_left ?_ _) _⟩
    rcases List.mem_cons.1 h with rfl | h
    · have htext : "  " ++ type.text ++ " " ++ name = "  " ++ (type.text ++ " " ++ name) := by
        simp only [String.append_assoc]
      rw [htext]
      exact infix_append_of_left (infix_append_of_left
        (infix_append_of_right _ List.infix_rfl) _) _
    · exact infix_append_of_right _ (Expr.infix_of_mem_words value w h)
  | assign name value | increase name value =>
    refine ⟨_, List.mem_singleton_self _, infix_append_of_left ?_ _⟩
    rcases List.mem_cons.1 h with rfl | h
    · exact infix_append_of_left (infix_append_of_left
        (infix_append_of_right _ List.infix_rfl) _) _
    · exact infix_append_of_right _ (Expr.infix_of_mem_words value w h)
  | give value =>
    exact ⟨_, List.mem_singleton_self _, infix_append_of_left
      (infix_append_of_right _ (Expr.infix_of_mem_words value w h)) _⟩
  | giveFirst first others fallback =>
    rw [words_giveFirst, List.mem_append, List.mem_append, List.mem_flatMap] at h
    simp only [lines, List.mem_append, List.mem_flatMap]
    rcases h with (h | ⟨arm, harm, h⟩) | h
    · obtain ⟨line, hline, h⟩ := Arm.exists_line_of_mem_words h
      exact ⟨line, .inl (.inl (.inl hline)), h⟩
    · obtain ⟨line, hline, h⟩ := Arm.exists_line_of_mem_words h
      exact ⟨line, .inl (.inl (.inr ⟨arm, harm, hline⟩)), h⟩
    · obtain ⟨value, hvalue, h⟩ := List.mem_flatMap.1 h
      rw [Option.mem_toList] at hvalue
      rw [hvalue]
      exact ⟨_, .inl (.inr (List.mem_cons_of_mem _ List.mem_cons_self)), infix_append_of_left
        (infix_append_of_right _ (Expr.infix_of_mem_words value w h)) _⟩

end Stmt

/-! ## Routines -/

namespace Routine

/-- The text of a routine up to its parameters. -/
def opening (layout : Layout) (r : Routine) : String :=
  r.result.text ++ " " ++ r.name ++ gap layout.afterName ++ "("

/-- The text of a routine from its parameters on. -/
def behindOpening (layout : Layout) (r : Routine) : String :=
  ", ".intercalate (r.params.map Param.text) ++ ") \x7b\n" ++
    "\n".intercalate (r.bodyLines layout ++ ["\x7d"])

/-- The words of a routine behind its opening. -/
def words (layout : Layout) (r : Routine) : List String :=
  r.params.map Param.text ++ r.body.flatMap (Stmt.words layout)

theorem text_eq (layout : Layout) (r : Routine) :
    r.text layout = r.opening layout ++ r.behindOpening layout := by
  have hlines : r.bodyLines layout ++ ["\x7d"] ≠ [] := by simp
  have hclosing : ") \x7b\n" = ")" ++ (" \x7b" ++ "\n") := by decide +kernel
  rw [text, List.cons_append, String.intercalate_cons_of_ne_nil hlines, signature, opening,
    behindOpening, hclosing]
  simp only [String.append_assoc]

/-- The opening ends in a parenthesis, which is not all there is to it. -/
theorem exists_toList_text (layout : Layout) (r : Routine) : ∃ c x,
    (r.opening layout).toList = c :: (x ++ ['(']) ∧
      (r.text layout).toList = c :: (x ++ '(' :: (r.behindOpening layout).toList) := by
  have hne : (r.result.text ++ " " ++ r.name ++ gap layout.afterName).toList ≠ [] := by simp
  obtain ⟨c, x, hx⟩ := List.exists_cons_of_ne_nil hne
  have hopening : (r.opening layout).toList = c :: (x ++ ['(']) := by
    rw [opening, String.toList_append, hx]
    rfl
  refine ⟨c, x, hopening, ?_⟩
  rw [text_eq, String.toList_append, hopening]
  simp

/-- The lines of a body are those of its statements, and empty ones. -/
theorem exists_of_mem_bodyLines {layout : Layout} {r : Routine} {line : String}
    (h : line ∈ r.bodyLines layout) : line = "" ∨ ∃ s ∈ r.body, line ∈ s.lines layout := by
  rcases mem_or_exists_of_mem_intercalate h with h | ⟨lines, hlines, h⟩
  · exact .inl (List.mem_singleton.1 h)
  · obtain ⟨p, hp, rfl⟩ := List.mem_map.1 hlines
    obtain ⟨s, hs, h⟩ := List.mem_flatMap.1 h
    exact .inr ⟨s, List.mem_flatten.2 ⟨p, hp, hs⟩, h⟩

theorem occurs_of_behindOpening {p : List Char} (hp : IsPhrase p) {layout : Layout} {r : Routine}
    (h : p <:+: (r.behindOpening layout).toList) : Occurs p (r.words layout) := by
  rcases hp.split h with h | h
  · obtain ⟨t, ht, h⟩ := hp.exists_of_intercalate h
    exact .left ⟨t, ht, h⟩ _
  · obtain ⟨line, hline, h⟩ := hp.exists_of_intercalate h
    rcases List.mem_append.1 hline with hline | hline
    · rcases exists_of_mem_bodyLines hline with rfl | ⟨s, hs, hline⟩
      · exact absurd (List.infix_nil.1 h) hp.ne_nil
      · exact .right _ (.flatMap hs (Stmt.occurs_of_lines hp hline h))
    · obtain rfl := List.mem_singleton.1 hline
      exact absurd h hp.not_infix_symbols

theorem infix_of_mem_words {layout : Layout} {r : Routine} {w : String} (h : w ∈ r.words layout) :
    w.toList <:+: (r.text layout).toList := by
  rw [text_eq]
  apply infix_append_of_right
  rcases List.mem_append.1 h with h | h
  · exact infix_append_of_left (infix_append_of_left
      (infix_intercalate_of_mem h List.infix_rfl) _) _
  · obtain ⟨s, hs, h⟩ := List.mem_flatMap.1 h
    obtain ⟨p, hp, hs⟩ := List.mem_flatten.1 hs
    obtain ⟨line, hline, h⟩ := Stmt.exists_line_of_mem_words h
    have hmem : line ∈ r.bodyLines layout :=
      (infix_intercalate (List.mem_map_of_mem hp)).subset (List.mem_flatMap.2 ⟨s, hs, hline⟩)
    exact infix_append_of_right _ (infix_intercalate_of_mem (List.mem_append_left _ hmem) h)

/-- A phrase stands in the text of a routine exactly if it stands in the opening or in a word. -/
theorem infix_text_iff {p : List Char} (hp : IsPhrase p) {layout : Layout} {r : Routine} :
    p <:+: (r.text layout).toList ↔ Occurs p (r.opening layout :: r.words layout) := by
  constructor
  · intro h
    rw [text_eq, opening] at h
    rcases hp.split_paren h with h | h
    · exact .head h _
    · exact .tail _ (occurs_of_behindOpening hp h)
  · rintro ⟨w, hw, h⟩
    rcases List.mem_cons.1 hw with rfl | hw
    · rw [text_eq, String.toList_append]
      exact h.trans (List.prefix_append _ _).isInfix
    · exact h.trans (infix_of_mem_words hw)

end Routine

/-! ## Sections -/

/-- The position at which a section starts behind others. -/
def sectionStart (before : List String) : Nat := (before.map (·.length + 2)).sum

theorem sectionStart_cons (t : String) (before : List String) :
    sectionStart (t :: before) = t.toList.length + 1 + (0 + 1 + sectionStart before) := by
  simp only [sectionStart, List.map_cons, List.sum_cons, String.length_toList]
  omega

theorem sectionStart_lt (before others : List String) (t : String) :
    sectionStart before < sectionStart (before ++ t :: others) := by
  simp only [sectionStart, List.map_append, List.map_cons, List.sum_append, List.sum_cons]
  omega

theorem toList_joinSections_cons (t : String) {sections : List String} (h : sections ≠ []) :
    (joinSections (t :: sections)).toList =
      t.toList ++ '\n' :: ([] ++ '\n' :: (joinSections sections).toList) := by
  rw [joinSections, String.intercalate_cons_of_ne_nil h, joinSections]
  simp only [String.toList_append, String.reduceToList, List.append_assoc, List.cons_append,
    List.nil_append]

theorem prefix_drop_sectionStart (before after : List String) (t : String) :
    t.toList <+: (joinSections (before ++ t :: after)).toList.drop (sectionStart before) := by
  induction before with
  | nil =>
    rcases eq_or_ne after [] with rfl | hafter
    · simp [joinSections, sectionStart]
    · rw [List.nil_append, toList_joinSections_cons t hafter]
      exact List.prefix_append _ _
  | cons u before ih =>
    rw [List.cons_append, toList_joinSections_cons u (by simp), sectionStart_cons]
    simpa [← List.drop_drop] using ih

namespace IsPhrase

variable {p : List Char}

theorem newline_not_mem (hp : IsPhrase p) : '\n' ∉ p := fun h => absurd (hp.chars _ h) (by decide)

theorem not_infix_joinSections (hp : IsPhrase p) {sections : List String}
    (h : ∀ t ∈ sections, ¬p <:+: t.toList) : ¬p <:+: (joinSections sections).toList := by
  intro hoccurs
  obtain ⟨t, ht, hoccurs⟩ := hp.exists_of_intercalate hoccurs
  exact h t ht hoccurs

/-- A phrase that stands at one position of one section, and in no other section, stands at one
position of the whole. -/
theorem onlyAt_joinSections (hp : IsPhrase p) {before after : List String} {t : String} {i : Nat}
    (ht : OnlyAt p t.toList i) (hbefore : ∀ u ∈ before, ¬p <:+: u.toList)
    (hafter : ∀ u ∈ after, ¬p <:+: u.toList) :
    OnlyAt p (joinSections (before ++ t :: after)).toList (sectionStart before + i) := by
  have hempty : ¬p <:+: [] := fun h => hp.ne_nil (List.infix_nil.1 h)
  induction before with
  | nil =>
    rw [sectionStart, List.map_nil, List.sum_nil, Nat.zero_add, List.nil_append]
    rcases eq_or_ne after [] with rfl | hne
    · simpa [joinSections] using ht
    · rw [toList_joinSections_cons t hne]
      have hbreak : Separates ['\n'] p := hp.separates (by decide)
      exact ht.append hp.newline_not_mem fun h =>
        hp.not_infix_joinSections hafter (hbreak.infix_right h)
  | cons u before ih =>
    rw [List.forall_mem_cons] at hbefore
    rw [List.cons_append, toList_joinSections_cons u (by simp), sectionStart_cons, Nat.add_assoc,
      Nat.add_assoc (0 + 1)]
    exact ((ih hbefore.2).behind hp.newline_not_mem hempty).behind hp.newline_not_mem hbefore.1

end IsPhrase

end Glsl

end CellularShader
