/- # What the header lets through

The notation of a rule is quoted in the comment at the top of a shader. As long as it does not end
the comment, the code of the shader does not depend on it. A notation with `*/` in it ends the
comment early, so that the rest of the header becomes code.
-/

import CellularShader.Proofs.Shader

namespace CellularShader

open Glsl

namespace Glsl

/-! ## Comments that end early -/

/-- Text that ends a comment is read as code from there on. -/
theorem exists_afterBlock_append {cs : List Char} (h : Shader.closesComment cs = true) :
    ∃ code, ∀ rest, afterBlock (cs ++ rest) = withoutComments (code ++ rest) := by
  fun_induction Shader.closesComment cs with
  | case1 code => exact ⟨code, fun rest => by rw [List.cons_append, List.cons_append, afterBlock]⟩
  | case2 c cs hne ih =>
    obtain ⟨code, hcode⟩ := ih h
    refine ⟨code, fun rest => ?_⟩
    rw [← hcode, List.cons_append, afterBlock]
    rintro rest' rfl hslash
    cases cs with
    | nil => cases h
    | cons d cs =>
      cases hslash
      exact hne cs rfl rfl
  | case3 => cases h

/-- What is left of the end of a text is no shorter for what precedes it, and longer unless that
opens a comment which is still open at the end. -/
theorem le_length_append {tail : List Char} {n : Nat}
    (hcode : n < (withoutComments ('\n' :: tail)).length)
    (hline : n < (afterLine ('\n' :: tail)).length)
    (hblock : n ≤ (afterBlock ('\n' :: tail)).length) :
    (∀ x, n < (withoutComments (x ++ '\n' :: tail)).length) ∧
    (∀ x, n < (afterLine (x ++ '\n' :: tail)).length) ∧
    ∀ x, n ≤ (afterBlock (x ++ '\n' :: tail)).length := by
  apply withoutComments.mutual_induct
  case case1 =>
    intro x hx
    simp only [List.cons_append, withoutComments, List.length_cons]
    omega
  case case2 =>
    intro x hx
    simp only [List.cons_append, withoutComments, List.length_cons]
    omega
  case case3 =>
    intro c x hstar hslash hx
    rw [List.cons_append, withoutComments, List.length_cons]
    · omega
    · intro rest hc h
      obtain ⟨y, rfl⟩ := exists_eq_cons h (by decide)
      exact hstar y hc rfl
    · intro rest hc h
      obtain ⟨y, rfl⟩ := exists_eq_cons h (by decide)
      exact hslash y hc rfl
  case case4 => exact hcode
  case case5 =>
    intro x hx
    simp only [List.cons_append, afterLine, List.length_cons]
    omega
  case case6 =>
    intro c x hc hx
    rwa [List.cons_append, afterLine]
    exact hc
  case case7 => exact hline
  case case8 =>
    intro x hx
    simp only [List.cons_append, afterBlock]
    omega
  case case9 =>
    intro c x hc hx
    rwa [List.cons_append, afterBlock]
    intro rest hstar h
    obtain ⟨y, rfl⟩ := exists_eq_cons h (by decide)
    exact hc y hstar rfl
  case case10 => exact hblock

end Glsl

namespace Shader

/-- The code of a shader, which is its text without comments. -/
def code (s : Shader) : List Char := withoutComments s.text.toList

/-- The header behind the mark that opens it, up to the blank before the notation of the rule. -/
def headerStart (family : String) : String :=
  "*\n * " ++ target ++ " generated by " ++ generator ++ "\n * \n * Rule format : " ++ family ++
    "\n * Rule :"

/-- The header behind the notation, up to the line of its last mark. -/
def headerEnd (edge : String) : String := "\n * Out of bound value : " ++ edge

/-- The text behind the header. -/
def behindHeader (rule : Rule) (neighbourhood : Neighbourhood) (edge : Edge) : String :=
  joinSections (hostInterface :: edge.lookupText :: (rule.sections neighbourhood ++ [entryText]))

theorem toList_header (family label edge : String) :
    (header family label edge).toList = '/' :: '*' :: ((headerStart family).toList ++
      ' ' :: (label.toList ++ ((headerEnd edge).toList ++ ['\n', ' ', '*', '/']))) := by
  unfold header headerStart headerEnd
  simp only [String.intercalate_cons_cons, String.intercalate_singleton, String.toList_append,
    List.append_assoc, String.reduceToList, List.cons_append, List.nil_append]

theorem closesComment_headerStart (family : Family) :
    closesComment (headerStart family.tag).toList = false := by
  unfold headerStart target generator
  simp only [String.toList_append, String.reduceToList, List.cons_append, List.nil_append]
  cases family
  all_goals
    simp only [Family.tag, String.reduceToList, List.cons_append, List.nil_append]
    rfl

theorem exists_toList_headerEnd (edge : String) : ∃ cs, (headerEnd edge).toList = '\n' :: cs := by
  unfold headerEnd
  simp only [String.toList_append, String.reduceToList, List.cons_append]
  exact ⟨_, rfl⟩

theorem closesComment_headerEnd (edge : String) :
    closesComment (headerEnd edge).toList = closesComment edge.toList := by
  unfold headerEnd
  simp only [String.toList_append, String.reduceToList, List.cons_append, List.nil_append]
  rfl

variable {rule : Rule} {label : String} {neighbourhood : Neighbourhood} {edge : Edge}

theorem toList_text :
    (Shader.mk rule label neighbourhood edge).text.toList =
      '/' :: '*' :: ((headerStart rule.family.tag).toList ++
        ' ' :: (label.toList ++ ((headerEnd edge.text).toList ++ '\n' :: ' ' :: '*' :: '/' ::
          '\n' :: '\n' :: (behindHeader rule neighbourhood edge).toList))) := by
  have htext : (Shader.mk rule label neighbourhood edge).text =
      header rule.family.tag label edge.text ++ "\n\n" ++ behindHeader rule neighbourhood edge := by
    rw [text, sections, behindHeader, joinSections, joinSections]
    simp only [List.cons_append, List.nil_append, String.intercalate_cons_cons]
  simp only [htext, String.toList_append, toList_header, String.reduceToList, List.append_assoc,
    List.cons_append, List.nil_append]

/-- The header is a comment up to the notation, and the code starts where that ends it. -/
theorem code_eq :
    (Shader.mk rule label neighbourhood edge).code =
      ' ' :: afterBlock (label.toList ++ ((headerEnd edge.text).toList ++ '\n' :: ' ' :: '*' ::
        '/' :: '\n' :: '\n' :: (behindHeader rule neighbourhood edge).toList)) := by
  generalize hrest : label.toList ++ ((headerEnd edge.text).toList ++ '\n' :: ' ' :: '*' :: '/' ::
        '\n' :: '\n' :: (behindHeader rule neighbourhood edge).toList) = rest
  rw [code, toList_text, hrest, withoutComments,
    afterBlock_append (closesComment_headerStart rule.family) (.inr (by simp))]
  rfl

/-- Behind a notation that does not end the comment, the code does not depend on it. -/
theorem code_of_closed (h : closesComment label.toList = false) :
    (Shader.mk rule label neighbourhood edge).code =
      ' ' :: afterBlock ((headerEnd edge.text).toList ++ '\n' :: ' ' :: '*' :: '/' ::
        '\n' :: '\n' :: (behindHeader rule neighbourhood edge).toList) := by
  obtain ⟨cs, hcs⟩ := exists_toList_headerEnd edge.text
  rw [code_eq, hcs, afterBlock_append h (.inr (by simp))]

/-- If the policy does not end the comment either, the whole header is a comment. -/
theorem code_of_closed_edge (h : closesComment label.toList = false)
    (hedge : closesComment edge.text.toList = false) :
    (Shader.mk rule label neighbourhood edge).code =
      ' ' :: withoutComments ('\n' :: '\n' :: (behindHeader rule neighbourhood edge).toList) := by
  have hend : closesComment (headerEnd edge.text).toList = false :=
    (closesComment_headerEnd edge.text).trans hedge
  generalize hrest : (behindHeader rule neighbourhood edge).toList = rest
  rw [code_of_closed h, hrest, afterBlock_append hend (.inr (by simp))]
  rfl

/-- A notation that ends the comment leaves more code behind. -/
theorem length_code_of_closes (h : closesComment label.toList = true) :
    (withoutComments ('\n' :: '\n' :: (behindHeader rule neighbourhood edge).toList)).length + 1 <
      (Shader.mk rule label neighbourhood edge).code.length := by
  obtain ⟨code, hcode⟩ := exists_afterBlock_append h
  rw [code_eq, hcode, ← List.append_assoc, List.length_cons, Nat.add_lt_add_iff_right]
  generalize (behindHeader rule neighbourhood edge).toList = rest
  refine (le_length_append ?_ ?_ ?_).1 _
  · simp [withoutComments]
  · simp [withoutComments, afterLine]
  · exact le_rfl

theorem code_ne_of_closes {a b : String} (ha : closesComment a.toList = true)
    (hb : closesComment b.toList = false) (hedge : closesComment edge.text.toList = false) :
    (Shader.mk rule a neighbourhood edge).code ≠ (Shader.mk rule b neighbourhood edge).code := by
  intro heq
  have hlonger : (withoutComments ('\n' :: '\n' ::
      (behindHeader rule neighbourhood edge).toList)).length + 1 <
        (Shader.mk rule a neighbourhood edge).code.length := length_code_of_closes ha
  rw [heq, code_of_closed_edge hb hedge, List.length_cons] at hlonger
  exact Nat.lt_irrefl _ hlonger

/-- The code of a shader does not depend on a notation that stays inside the comment. If the policy
stays inside as well, a notation changes the code exactly when it ends the comment. -/
theorem code_eq_iff_label_closed (rule : Rule) (neighbourhood : Neighbourhood) (edge : Edge)
    (a b : String) :
    (closesComment a.toList = false → closesComment b.toList = false →
      (Shader.mk rule a neighbourhood edge).code = (Shader.mk rule b neighbourhood edge).code) ∧
    (closesComment edge.text.toList = false → closesComment b.toList = false →
      ((Shader.mk rule a neighbourhood edge).code = (Shader.mk rule b neighbourhood edge).code ↔
        closesComment a.toList = false)) := by
  have hsame (ha : closesComment a.toList = false) (hb : closesComment b.toList = false) :
      (Shader.mk rule a neighbourhood edge).code = (Shader.mk rule b neighbourhood edge).code :=
    (code_of_closed ha).trans (code_of_closed hb).symm
  refine ⟨hsame, fun hedge hb => ⟨fun heq => ?_, fun ha => hsame ha hb⟩⟩
  by_contra ha
  exact code_ne_of_closes (Bool.eq_true_of_not_eq_false ha) hb hedge heq

/-- A notation can put a declaration into the code of a shader. -/
theorem code_depends_on_label :
    (Shader.mk (.vote {}) "*/ int x; /*" [] (.literal "0")).code ≠
      (Shader.mk (.vote {}) "" [] (.literal "0")).code :=
  code_ne_of_closes (by decide +kernel) rfl (by decide +kernel)

end Shader

end CellularShader
