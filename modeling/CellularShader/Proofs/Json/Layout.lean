/- # How a document may be laid out

The tokens of a written document stand in a fixed order, and blanks may stand between them inside
brackets. The compact text has no blanks at all and the indented text has line breaks and
indentation; both are layouts of the same document.
-/

import CellularShader.Json.Reader

namespace CellularShader

namespace Json

/-- Text that consists of blanks. -/
def Blank (text : List Char) : Prop := ∀ c ∈ text, isBlank c = true

instance : DecidablePred Blank := fun text =>
  decidable_of_iff (text.all isBlank = true) List.all_eq_true

theorem blank_nil : Blank [] := by simp [Blank]

theorem Blank.append {a b : List Char} (ha : Blank a) (hb : Blank b) : Blank (a ++ b) := by
  intro c hc
  rcases List.mem_append.1 hc with hc | hc
  · exact ha c hc
  · exact hb c hc

theorem Blank.cons {c : Char} {text : List Char} (hc : isBlank c = true) (h : Blank text) :
    Blank (c :: text) := by
  simpa [Blank] using And.intro hc h

/-! ## Pieces between brackets -/

/-- The pieces after the first one, each with a comma before it. -/
inductive Following : List (List Char) → List Char → Prop
  | done {gap : List Char} (hgap : Blank gap) : Following [] gap
  | next {gap lead piece text : List Char} {pieces : List (List Char)} (hgap : Blank gap)
      (hlead : Blank lead) (h : Following pieces text) :
      Following (piece :: pieces) (gap ++ ',' :: (lead ++ (piece ++ text)))

/-- Pieces with commas between them, as they stand between two brackets. -/
inductive Listed : List (List Char) → List Char → Prop
  | none {gap : List Char} (hgap : Blank gap) : Listed [] gap
  | some {lead piece text : List Char} {pieces : List (List Char)} (hlead : Blank lead)
      (h : Following pieces text) : Listed (piece :: pieces) (lead ++ (piece ++ text))

/-- Pieces joined by commas, all with the same blanks before them. -/
theorem following_join {lead trail : List Char} (hlead : Blank lead) (htrail : Blank trail)
    (pieces : List (List Char)) :
    Following pieces ((pieces.map fun piece => ',' :: (lead ++ piece)).flatten ++ trail) := by
  induction pieces with
  | nil => exact .done htrail
  | cons piece pieces ih => simpa using Following.next blank_nil hlead ih

theorem intercalate_cons_eq_flatten (lead piece : List Char) (pieces : List (List Char)) :
    (',' :: lead).intercalate (piece :: pieces) =
      piece ++ (pieces.map fun piece => ',' :: (lead ++ piece)).flatten := by
  induction pieces generalizing piece with
  | nil => simp
  | cons next pieces ih => rw [List.intercalate_cons_cons, ih]; simp

theorem listed_intercalate {lead trail : List Char} (hlead : Blank lead) (htrail : Blank trail)
    (piece : List Char) (pieces : List (List Char)) :
    Listed (piece :: pieces) (lead ++ ((',' :: lead).intercalate (piece :: pieces) ++ trail)) := by
  rw [intercalate_cons_eq_flatten, List.append_assoc]
  exact .some hlead (following_join hlead htrail pieces)

theorem listed_compact (lines : List String) :
    Listed (lines.map String.toList) (",".intercalate lines).toList := by
  cases lines with
  | nil => exact .none blank_nil
  | cons line lines => simpa using listed_intercalate blank_nil blank_nil line.toList _

theorem listed_bracketed {indent : String} (hindent : Blank indent.toList)
    (opening closing : String) (lines : List String) : ∃ inside,
    (Document.bracketed indent opening closing lines).toList =
        opening.toList ++ (inside ++ closing.toList) ∧
      Listed (lines.map String.toList) inside := by
  -- The closing bracket is indented like the opening one, the pieces two blanks further.
  have htrail : Blank ('\n' :: indent.toList) := hindent.cons rfl
  have hlead : Blank ('\n' :: (indent.toList ++ [' ', ' '])) :=
    (hindent.append (by decide)).cons rfl
  cases lines with
  | nil => exact ⟨[], by simp [Document.bracketed], .none blank_nil⟩
  | cons line lines =>
    refine ⟨_, ?_, listed_intercalate hlead htrail line.toList (lines.map String.toList)⟩
    simp [Document.bracketed]

/-! ## Layouts of a document -/

/-- A member of an object, with blanks between the colon and the value. -/
def memberText (key : String) (gap text : List Char) : List Char :=
  (stringText key).toList ++ ':' :: (gap ++ text)

mutual

/-- The texts that a document can be written as. -/
inductive Written : Document → List Char → Prop
  | null : Written .null ['n', 'u', 'l', 'l']
  | true : Written (.bool true) ['t', 'r', 'u', 'e']
  | false : Written (.bool false) ['f', 'a', 'l', 's', 'e']
  | number (text : String) : Written (.number text) text.toList
  | string (text : String) : Written (.string text) (stringText text).toList
  | array {elements : List Document} {texts : List (List Char)} {inside : List Char}
      (h : WrittenElements elements texts) (hinside : Listed texts inside) :
      Written (.array elements) ('[' :: (inside ++ [']']))
  | object {members : List (String × Document)} {texts : List (List Char)} {inside : List Char}
      (h : WrittenMembers members texts) (hinside : Listed texts inside) :
      Written (.object members) ('{' :: (inside ++ ['}']))

/-- Texts for the elements of a list. -/
inductive WrittenElements : List Document → List (List Char) → Prop
  | nil : WrittenElements [] []
  | cons {d : Document} {text : List Char} {elements : List Document} {texts : List (List Char)}
      (h : Written d text) (hrest : WrittenElements elements texts) :
      WrittenElements (d :: elements) (text :: texts)

/-- Texts for the members of an object. -/
inductive WrittenMembers : List (String × Document) → List (List Char) → Prop
  | nil : WrittenMembers [] []
  | cons {key : String} {d : Document} {gap text : List Char} {members : List (String × Document)}
      {texts : List (List Char)} (hgap : Blank gap) (h : Written d text)
      (hrest : WrittenMembers members texts) :
      WrittenMembers ((key, d) :: members) (memberText key gap text :: texts)

end

theorem Written.eq_of_string {s : String} {text : List Char} (h : Written (.string s) text) :
    text = (stringText s).toList := by
  cases h
  rfl

theorem WrittenMembers.exists_of_cons {key : String} {d : Document}
    {members : List (String × Document)} {texts : List (List Char)}
    (h : WrittenMembers ((key, d) :: members) texts) : ∃ gap text rest,
      texts = memberText key gap text :: rest ∧ Blank gap ∧ Written d text ∧
        WrittenMembers members rest := by
  cases h with
  | cons hgap h hrest => exact ⟨_, _, _, rfl, hgap, h, hrest⟩

namespace Document

mutual

theorem written_compact : (d : Document) → Written d d.compact.toList
  | .null => by simpa [compact] using Written.null
  | .bool true => by simpa [compact] using Written.true
  | .bool false => by simpa [compact] using Written.false
  | .number text => .number text
  | .string text => .string text
  | .array elements => by
    have h := Written.array (written_compactElements elements) (listed_compact _)
    simpa [compact] using h
  | .object members => by
    have h := Written.object (written_compactMembers members) (listed_compact _)
    simpa [compact] using h

theorem written_compactElements : (elements : List Document) →
    WrittenElements elements ((compactElements elements).map String.toList)
  | [] => .nil
  | d :: elements => .cons (written_compact d) (written_compactElements elements)

theorem written_compactMembers : (members : List (String × Document)) →
    WrittenMembers members ((compactMembers members).map String.toList)
  | [] => .nil
  | (key, d) :: members => by
    have h : WrittenMembers ((key, d) :: members) _ :=
      .cons blank_nil (written_compact d) (written_compactMembers members)
    simpa [compactMembers, memberText] using h

end

theorem blank_deeper {indent : String} (h : Blank indent.toList) :
    Blank (indent ++ "  ").toList := by
  rw [String.toList_append]
  exact h.append (by decide)

mutual

theorem written_indented {indent : String} (hindent : Blank indent.toList) :
    (d : Document) → Written d (indented indent d).toList
  | .null => by simpa [indented] using Written.null
  | .bool true => by simpa [indented] using Written.true
  | .bool false => by simpa [indented] using Written.false
  | .number text => .number text
  | .string text => .string text
  | .array elements => by
    obtain ⟨inside, htext, hinside⟩ := listed_bracketed hindent "[" "]"
      (indentedElements (indent ++ "  ") elements)
    rw [indented, htext]
    exact .array (written_indentedElements (blank_deeper hindent) elements) hinside
  | .object members => by
    obtain ⟨inside, htext, hinside⟩ := listed_bracketed hindent "\x7b" "\x7d"
      (indentedMembers (indent ++ "  ") members)
    rw [indented, htext]
    exact .object (written_indentedMembers (blank_deeper hindent) members) hinside

theorem written_indentedElements {indent : String} (hindent : Blank indent.toList) :
    (elements : List Document) →
      WrittenElements elements ((indentedElements indent elements).map String.toList)
  | [] => .nil
  | d :: elements =>
    .cons (written_indented hindent d) (written_indentedElements hindent elements)

theorem written_indentedMembers {indent : String} (hindent : Blank indent.toList) :
    (members : List (String × Document)) →
      WrittenMembers members ((indentedMembers indent members).map String.toList)
  | [] => .nil
  | (key, d) :: members => by
    have h : WrittenMembers ((key, d) :: members) _ :=
      .cons (by decide : Blank [' ']) (written_indented hindent d)
        (written_indentedMembers hindent members)
    simpa [indentedMembers, memberText] using h

end

theorem written_pretty (d : Document) : Written d d.pretty.toList := written_indented (by decide) d

end Document

end Json

end CellularShader
