/- # Lists, objects and values read back

A reader reads a text back when it takes exactly that text from any longer one, whatever blanks
stand before it. Lists and objects of texts that are read back are read back themselves, in every
layout. By induction on its nesting, so is every value, except that a float comes back as the float
that its own text is read as.
-/

import CellularShader.Proofs.Json.Float
import CellularShader.Proofs.Outcome
import CellularShader.Proofs.SortedMap
import Mathlib.Data.List.DropRight
import Mathlib.Data.List.Forall2

namespace CellularShader

namespace Json

variable {α β σ : Type}

/-- Text that starts with something other than a blank or the end of a list. -/
def Starts (text : List Char) : Prop := ∃ c tail, text = c :: tail ∧ isBlank c = false ∧ c ≠ ']'

/-- The reader takes the text, and nothing behind it, as a form of `x`. -/
structure ReadAs (reader : Reader α) (text : List Char) (x : α) : Prop where
  starts : Starts text
  reads {gap rest : List Char} (hgap : Blank gap) (hrest : Ends rest) :
    reader (gap ++ (text ++ rest)) = .ok (x, rest)

theorem ReadAs.ok {reader : Reader α} {text : List Char} {x : α} (h : ReadAs reader text x)
    {rest : List Char} (hrest : Ends rest) : reader (text ++ rest) = .ok (x, rest) :=
  h.reads blank_nil hrest

theorem skipBlanks_eq_nil_iff {text : List Char} : skipBlanks text = [] ↔ Blank text :=
  List.dropWhile_eq_nil_iff

/-- A whole text is read when only blanks are left of it. -/
theorem readText_eq_ok_iff {reader : Reader α} {text : String} {x : α} :
    readText reader text = .ok x ↔ ∃ rest, reader text.toList = .ok (x, rest) ∧ Blank rest := by
  constructor
  · intro h
    obtain ⟨⟨y, rest⟩, hread, h⟩ := Outcome.bind_eq_ok_iff.1 h
    simp only at h
    split_ifs at h with hrest
    cases h
    exact ⟨rest, hread, skipBlanks_eq_nil_iff.1 (List.isEmpty_iff.1 hrest)⟩
  · rintro ⟨rest, hread, hblank⟩
    rw [readText, hread]
    exact if_pos (List.isEmpty_iff.2 (skipBlanks_eq_nil_iff.2 hblank))

/-- A text is read as a whole. -/
theorem ReadAs.readText {reader : Reader α} {text : String} {x : α}
    (h : ReadAs reader text.toList x) : Json.readText reader text = .ok x := by
  have hread : reader text.toList = .ok (x, []) := by simpa using h.ok ends_nil
  exact readText_eq_ok_iff.2 ⟨[], hread, blank_nil⟩

theorem skipBlanks_idem (text : List Char) : skipBlanks (skipBlanks text) = skipBlanks text :=
  List.dropWhile_idempotent _ text

/-- A reader that passes over blanks first has to be looked at without them only. -/
theorem ReadAs.of_skips {reader : Reader α} {c : Char} {tail : List Char} {x : α}
    (hskips : ∀ text, reader (skipBlanks text) = reader text) (hc : isBlank c = false)
    (hclose : c ≠ ']') (h : ∀ rest, Ends rest → reader (c :: (tail ++ rest)) = .ok (x, rest)) :
    ReadAs reader (c :: tail) x where
  starts := ⟨c, tail, rfl, hc, hclose⟩
  reads {gap rest} hgap hrest := by
    rw [← hskips, List.cons_append, skipBlanks_append hgap hc, h rest hrest]

/-! ## Lists -/

theorem nextElement_close (first : Bool) {gap : List Char} (hgap : Blank gap) (rest : List Char) :
    nextElement first (gap ++ ']' :: rest) = .ok (false, ']' :: rest) := by
  rw [nextElement, skipBlanks_append hgap rfl]
  rfl

theorem nextElement_first {gap : List Char} (hgap : Blank gap) {c : Char}
    (hblank : isBlank c = false) (hclose : c ≠ ']') (rest : List Char) :
    nextElement true (gap ++ c :: rest) = .ok (true, c :: rest) := by
  rw [nextElement, skipBlanks_append hgap hblank]
  split
  case h_1 heq => cases heq
  case h_2 heq => exact absurd (List.cons.inj heq).1 hclose
  case h_3 heq =>
    cases heq
    rfl

/-- Behind a comma blanks are passed over again, and a bracket there is an error. -/
theorem nextElement_behind_comma {gap : List Char} (hgap : Blank gap) (rest : List Char) :
    nextElement false (gap ++ ',' :: rest) =
      match skipBlanks rest with
      | [] => .error .unfinishedValue
      | ']' :: _ => .error .trailingComma
      | element => .ok (true, element) := by
  rw [nextElement, skipBlanks_append hgap rfl]
  rfl

theorem nextElement_comma {gap lead : List Char} (hgap : Blank gap) (hlead : Blank lead) {c : Char}
    (hblank : isBlank c = false) (hclose : c ≠ ']') (rest : List Char) :
    nextElement false (gap ++ ',' :: (lead ++ c :: rest)) = .ok (true, c :: rest) := by
  rw [nextElement_behind_comma hgap, skipBlanks_append hlead hblank]
  split
  case h_1 heq => cases heq
  case h_2 heq => exact absurd (List.cons.inj heq).1 hclose
  case h_3 => rfl

theorem closeList_append {gap : List Char} (hgap : Blank gap) (rest : List Char) :
    closeList (gap ++ ']' :: rest) = .ok ((), rest) := by
  rw [closeList, skipBlanks_append hgap rfl]
  rfl

theorem Following.ends {pieces : List (List Char)} {text : List Char} (h : Following pieces text)
    {close : Char} (hclose : endsValue close = true) (rest : List Char) :
    Ends (text ++ close :: rest) := by
  have hgap {gap : List Char} {c : Char} (hgap : Blank gap) (hc : endsValue c = true)
      (rest : List Char) : Ends (gap ++ c :: rest) := by
    cases gap with
    | nil => exact ends_cons hc rest
    | cons b gap =>
      have hb : isBlank b = true := hgap b List.mem_cons_self
      exact ends_cons (by simp [endsValue, hb]) _
  cases h with
  | done h => exact hgap h hclose rest
  | next h =>
    rw [List.append_assoc]
    exact hgap h rfl _

/-- The reader of elements goes on to the first piece. -/
theorem Listed.nextElement {piece inside : List Char} {pieces : List (List Char)}
    (h : Listed (piece :: pieces) inside) (hpiece : Starts piece) :
    ∃ text, Following pieces text ∧
      ∀ rest, Json.nextElement true (inside ++ rest) = .ok (true, piece ++ (text ++ rest)) := by
  obtain ⟨c, tail, rfl, hblank, hclose⟩ := hpiece
  cases h with
  | some hlead h =>
    refine ⟨_, h, fun rest => ?_⟩
    rw [List.append_assoc, List.append_assoc]
    exact nextElement_first hlead hblank hclose _

/-- The reader of elements goes on past a comma to the next piece. -/
theorem Following.nextElement {piece text : List Char} {pieces : List (List Char)}
    (h : Following (piece :: pieces) text) (hpiece : Starts piece) :
    ∃ text', Following pieces text' ∧
      ∀ rest, Json.nextElement false (text ++ rest) = .ok (true, piece ++ (text' ++ rest)) := by
  obtain ⟨c, tail, rfl, hblank, hclose⟩ := hpiece
  cases h with
  | next hgap hlead h =>
    refine ⟨_, h, fun rest => ?_⟩
    rw [List.append_assoc, List.cons_append, List.append_assoc, List.append_assoc]
    exact nextElement_comma hgap hlead hblank hclose _

/-- An element is read and the others after it. -/
theorem readElements_of_next {item : Reader α} {first : Bool} {input piece after rest : List Char}
    {x : α} {xs : List α} (hpiece : ReadAs item piece x)
    (hnext : nextElement first input = .ok (true, piece ++ after)) (hends : Ends after)
    {bound : List Char} (hrest : readElements item bound false after = .ok (xs, rest)) (b : Char) :
    readElements item (b :: bound) first input = .ok (x :: xs, rest) := by
  rw [readElements, Reader.bind_of_ok hnext, if_pos rfl, Reader.bind_of_ok (hpiece.ok hends),
    Reader.bind_of_ok hrest]
  rfl

theorem readElements_following {item : Reader α} {pieces : List (List Char)} {text : List Char}
    (h : Following pieces text) {xs : List α} (hitems : List.Forall₂ (ReadAs item) pieces xs)
    {bound : List Char} (hbound : pieces.length < bound.length) (rest : List Char) :
    readElements item bound false (text ++ ']' :: rest) = .ok (xs, ']' :: rest) := by
  -- The bound is used up by one with each element; the text has more characters than elements.
  induction hitems generalizing text bound with
  | nil =>
    obtain ⟨hgap⟩ := h
    cases bound with
    | nil => simp at hbound
    | cons b bound =>
      rw [readElements, Reader.bind_of_ok (nextElement_close false hgap rest)]
      rfl
  | cons hpiece _ ih =>
    cases bound with
    | nil => simp at hbound
    | cons b bound =>
      obtain ⟨text', h', hnext⟩ := h.nextElement hpiece.starts
      have hrest := ih h' (Nat.lt_of_succ_lt_succ hbound)
      exact readElements_of_next hpiece (hnext _) (h'.ends rfl rest) hrest b

theorem Following.length_le {pieces : List (List Char)} {text : List Char}
    (h : Following pieces text) : pieces.length ≤ text.length := by
  induction h with
  | done => simp
  | next _ _ _ ih =>
    simp only [List.length_append, List.length_cons]
    omega

theorem readElements_listed {item : Reader α} {pieces : List (List Char)} {inside : List Char}
    (h : Listed pieces inside) {xs : List α} (hitems : List.Forall₂ (ReadAs item) pieces xs)
    {bound : List Char} (hbound : pieces.length < bound.length) (rest : List Char) :
    readElements item bound true (inside ++ ']' :: rest) = .ok (xs, ']' :: rest) := by
  cases bound with
  | nil => simp at hbound
  | cons b bound =>
    cases hitems with
    | nil =>
      obtain ⟨hgap⟩ := h
      rw [readElements, Reader.bind_of_ok (nextElement_close true hgap rest)]
      rfl
    | cons hpiece hitems =>
      obtain ⟨text, h', hnext⟩ := h.nextElement hpiece.starts
      have hrest := readElements_following h' hitems (Nat.lt_of_succ_lt_succ hbound) rest
      exact readElements_of_next hpiece (hnext _) (h'.ends rfl rest) hrest b

theorem Listed.length_le {pieces : List (List Char)} {inside : List Char} (h : Listed pieces inside)
    (hne : pieces.head? ≠ Option.some []) : pieces.length ≤ inside.length := by
  cases h with
  | none => simp
  | @some lead piece _ _ _ h =>
    have hpiece : 0 < piece.length := List.length_pos_iff.2 (by simpa using hne)
    have hlength := h.length_le
    simp only [List.length_append, List.length_cons]
    omega

theorem Listed.length_lt {pieces : List (List Char)} {inside : List Char} (h : Listed pieces inside)
    (hne : pieces.head? ≠ Option.some []) (close : Char) (rest : List Char) :
    pieces.length < (inside ++ close :: rest).length := by
  have hlength := h.length_le hne
  simp only [List.length_append, List.length_cons]
  omega

/-- A list of texts that are read back is read to its closing bracket. -/
theorem readList_listed {item : Reader α} {pieces : List (List Char)} {inside : List Char}
    (h : Listed pieces inside) {xs : List α} (hitems : List.Forall₂ (ReadAs item) pieces xs)
    (rest : List Char) : readList item (inside ++ ']' :: rest) = .ok (xs, rest) := by
  -- A piece is never empty, so there are no more pieces than characters.
  have hne : pieces.head? ≠ some [] := by
    cases hitems with
    | nil => simp
    | cons hpiece =>
      obtain ⟨c, tail, rfl, -⟩ := hpiece.starts
      simp
  have hbound := h.length_lt hne ']' rest
  have hclose : closeList (']' :: rest) = .ok ((), rest) := closeList_append blank_nil rest
  rw [readList, Reader.bind_of_ok (readElements_listed h hitems hbound rest),
    Reader.bind_of_ok hclose]
  rfl

/-! ## Objects -/

theorem nextKey_close (first : Bool) {gap : List Char} (hgap : Blank gap) (rest : List Char) :
    nextKey first (gap ++ '}' :: rest) = .ok (false, rest) := by
  rw [nextKey, skipBlanks_append hgap rfl]
  rfl

theorem nextKey_first {gap : List Char} (hgap : Blank gap) (rest : List Char) :
    nextKey true (gap ++ '"' :: rest) = .ok (true, rest) := by
  rw [nextKey, skipBlanks_append hgap rfl]
  rfl

theorem nextKey_behind_comma {gap : List Char} (hgap : Blank gap) (rest : List Char) :
    nextKey false (gap ++ ',' :: rest) =
      match skipBlanks rest with
      | [] => .error .unfinishedValue
      | '"' :: key => .ok (true, key)
      | '}' :: _ => .error .trailingComma
      | _ => .error .keyNotString := by
  rw [nextKey, skipBlanks_append hgap rfl]
  rfl

theorem nextKey_comma {gap lead : List Char} (hgap : Blank gap) (hlead : Blank lead)
    (rest : List Char) :
    nextKey false (gap ++ ',' :: (lead ++ '"' :: rest)) = .ok (true, rest) := by
  rw [nextKey_behind_comma hgap, skipBlanks_append hlead rfl]
  rfl

/-- The members with the given texts are taken in one after another. -/
inductive TakesIn (member : String → σ → Reader σ) : σ → List (List Char) → σ → Prop
  | nil (state : σ) : TakesIn member state [] state
  | cons {key : String} {gap text : List Char} {texts : List (List Char)} {state next last : σ}
      (h : ∀ rest, Ends rest →
        member key state (':' :: (gap ++ (text ++ rest))) = .ok (next, rest))
      (hrest : TakesIn member next texts last) :
      TakesIn member state (memberText key gap text :: texts) last

variable {member : String → σ → Reader σ}

theorem memberText_append (key : String) (gap text rest : List Char) :
    memberText key gap text ++ rest =
      '"' :: (escaped key.toList ++ '"' :: ':' :: (gap ++ (text ++ rest))) := by
  simp [memberText, toList_stringText]

/-- The reader of members goes on to the first member. -/
theorem Listed.nextKey {key : String} {gap text inside : List Char}
    {pieces : List (List Char)}
    (h : Listed (memberText key gap text :: pieces) inside) :
    ∃ behind, Following pieces behind ∧ ∀ rest, Json.nextKey true (inside ++ rest) =
      .ok (true, escaped key.toList ++ '"' :: ':' :: (gap ++ (text ++ (behind ++ rest)))) := by
  cases h with
  | some hlead h =>
    refine ⟨_, h, fun rest => ?_⟩
    rw [List.append_assoc, List.append_assoc, memberText_append]
    exact nextKey_first hlead _

/-- The reader of members goes on past a comma to the next member. -/
theorem Following.nextKey {key : String} {gap text inside : List Char}
    {pieces : List (List Char)}
    (h : Following (memberText key gap text :: pieces) inside) :
    ∃ behind, Following pieces behind ∧ ∀ rest, Json.nextKey false (inside ++ rest) =
      .ok (true, escaped key.toList ++ '"' :: ':' :: (gap ++ (text ++ (behind ++ rest)))) := by
  cases h with
  | next hgap hlead h =>
    refine ⟨_, h, fun rest => ?_⟩
    rw [List.append_assoc, List.cons_append, List.append_assoc, List.append_assoc,
      memberText_append]
    exact nextKey_comma hgap hlead _

section

variable {key : String} {first : Bool} {input gap text after : List Char} {state next : σ}
  (hnext : nextKey first input =
    .ok (true, escaped key.toList ++ '"' :: ':' :: (gap ++ (text ++ after))))

include hnext

/-- The key of a member is read, and the rest of it is left to the reader of the member. -/
theorem readMembers_of_nextKey (state : σ) (b : Char) (bound : List Char) :
    readMembers member (b :: bound) first state input =
      (member key state >>= readMembers member bound false)
        (':' :: (gap ++ (text ++ after))) := by
  rw [readMembers, Reader.bind_of_ok hnext, if_pos rfl, Reader.bind_of_ok (readString_escaped _ _)]

/-- A member is taken in and the others after it. -/
theorem readMembers_of_next
    (hmember : member key state (':' :: (gap ++ (text ++ after))) = .ok (next, after)) (b : Char)
    (bound : List Char) : readMembers member (b :: bound) first state input =
      readMembers member bound false next after :=
  (readMembers_of_nextKey hnext state b bound).trans (Reader.bind_of_ok hmember _)

end

theorem readMembers_following {pieces : List (List Char)} {text : List Char}
    (h : Following pieces text) {state last : σ} (hmembers : TakesIn member state pieces last)
    {bound : List Char} (hbound : pieces.length < bound.length) (rest : List Char) :
    readMembers member bound false state (text ++ '}' :: rest) = .ok (last, rest) := by
  have hclose : endsValue '}' = true := rfl
  induction hmembers generalizing text bound with
  | nil state =>
    obtain ⟨hgap⟩ := h
    cases bound with
    | nil => simp at hbound
    | cons b bound =>
      rw [readMembers, Reader.bind_of_ok (nextKey_close false hgap rest)]
      rfl
  | cons hmember _ ih =>
    cases bound with
    | nil => simp at hbound
    | cons b bound =>
      obtain ⟨after, h', hnext⟩ := h.nextKey
      have hrest := ih h' (Nat.lt_of_succ_lt_succ hbound)
      exact (readMembers_of_next (hnext _) (hmember _ (h'.ends hclose rest)) b bound).trans hrest

theorem readMembers_listed {pieces : List (List Char)} {inside : List Char}
    (h : Listed pieces inside) {state last : σ} (hmembers : TakesIn member state pieces last)
    {bound : List Char} (hbound : pieces.length < bound.length) (rest : List Char) :
    readMembers member bound true state (inside ++ '}' :: rest) = .ok (last, rest) := by
  have hclose : endsValue '}' = true := rfl
  cases bound with
  | nil => simp at hbound
  | cons b bound =>
    cases hmembers with
    | nil =>
      obtain ⟨hgap⟩ := h
      rw [readMembers, Reader.bind_of_ok (nextKey_close true hgap rest)]
      rfl
    | cons hmember hmembers =>
      obtain ⟨after, h', hnext⟩ := h.nextKey
      have hrest := readMembers_following h' hmembers (Nat.lt_of_succ_lt_succ hbound) rest
      exact (readMembers_of_next (hnext _) (hmember _ (h'.ends hclose rest)) b bound).trans hrest

/-- An object whose members are taken in is read to its closing brace. -/
theorem readObject_listed {pieces : List (List Char)} {inside : List Char}
    (h : Listed pieces inside) {state last : σ} (hmembers : TakesIn member state pieces last)
    (rest : List Char) : readObject member state (inside ++ '}' :: rest) = .ok (last, rest) := by
  have hne : pieces.head? ≠ some [] := by
    cases hmembers with
    | nil => simp
    | cons => simp [memberText, toList_stringText]
  have hbound := h.length_lt hne '}' rest
  exact readMembers_listed h hmembers hbound rest

/-! ## Values -/

namespace Document

mutual

/-- How deep lists and objects nest in a document. -/
def depth : Document → Nat
  | array elements => elementsDepth elements + 1
  | object members => membersDepth members + 1
  | null | bool _ | number _ | string _ => 0

def elementsDepth : List Document → Nat
  | [] => 0
  | d :: elements => max d.depth (elementsDepth elements)

def membersDepth : List (String × Document) → Nat
  | [] => 0
  | (_, d) :: members => max d.depth (membersDepth members)

end

theorem depth_le_elementsDepth {d : Document} {elements : List Document} (h : d ∈ elements) :
    d.depth ≤ elementsDepth elements := by
  induction elements with
  | nil => cases h
  | cons e elements ih =>
    rw [elementsDepth]
    rcases List.mem_cons.1 h with rfl | h
    · exact Nat.le_max_left _ _
    · exact (ih h).trans (Nat.le_max_right _ _)

end Document

namespace Value

theorem depth_le_memberDocuments {m : String × Value} {members : List (String × Value)}
    (h : m ∈ members) : m.2.document.depth ≤ Document.membersDepth (memberDocuments members) := by
  induction members with
  | nil => cases h
  | cons n members ih =>
    rw [memberDocuments, Document.membersDepth]
    rcases List.mem_cons.1 h with rfl | h
    · exact Nat.le_max_left _ _
    · exact (ih h).trans (Nat.le_max_right _ _)

/-- Values in which every number is an integer of 64 bits and every object is in key order. -/
inductive IsIntegral : Value → Prop
  | null : IsIntegral .null
  | bool (b : Bool) : IsIntegral (.bool b)
  | integer {n : Int} (h : IsWord n) : IsIntegral (.number (.integer n h))
  | string (text : String) : IsIntegral (.string text)
  | array {elements : List Value} (h : ∀ v ∈ elements, IsIntegral v) :
      IsIntegral (.array elements)
  | object {members : List (String × Value)} (h : ∀ m ∈ members, IsIntegral m.2)
      (hsorted : members.Pairwise (fun a b => a.1 < b.1)) : IsIntegral (.object members)

theorem elementDocuments_eq_map (elements : List Value) :
    elementDocuments elements = elements.map document := by
  induction elements with
  | nil => rfl
  | cons v elements ih => rw [elementDocuments, ih, List.map_cons]

end Value

/-! ### What a text is read as -/

namespace Number

/-- The number that the text of a number is read as. -/
def reread : Number → Number
  | integer n h => integer n h
  | float x h =>
    float (FloatStyle.double.reread x) (FloatStyle.isReadable_double h).isFinite_reread

end Number

namespace Value

mutual

/-- The value that the text of a value is read as. -/
def reread : Value → Value
  | null => null
  | bool b => bool b
  | number n => number n.reread
  | string text => string text
  | array elements => array (rereadElements elements)
  | object members => object (rereadMembers members)

def rereadElements : List Value → List Value
  | [] => []
  | v :: elements => v.reread :: rereadElements elements

def rereadMembers : List (String × Value) → List (String × Value)
  | [] => []
  | (key, v) :: members => (key, v.reread) :: rereadMembers members

end

theorem rereadElements_eq_map (elements : List Value) :
    rereadElements elements = elements.map reread := by
  induction elements with
  | nil => rfl
  | cons v elements ih => rw [rereadElements, ih, List.map_cons]

theorem rereadMembers_eq_map (members : List (String × Value)) :
    rereadMembers members = members.map fun m => (m.1, m.2.reread) := by
  induction members with
  | nil => rfl
  | cons m members ih => rw [rereadMembers, ih, List.map_cons]

/-- Values that have a text which nests no deeper than a limit. -/
inductive IsWritable : Nat → Value → Prop
  | null {limit : Nat} : IsWritable limit .null
  | bool {limit : Nat} (b : Bool) : IsWritable limit (.bool b)
  | number {limit : Nat} (n : Number) : IsWritable limit (.number n)
  | string {limit : Nat} (text : String) : IsWritable limit (.string text)
  | array {limit : Nat} {elements : List Value} (h : ∀ v ∈ elements, IsWritable limit v) :
      IsWritable (limit + 1) (.array elements)
  | object {limit : Nat} {members : List (String × Value)} (h : ∀ m ∈ members, IsWritable limit m.2)
      (hsorted : members.Pairwise (fun a b => a.1 < b.1)) : IsWritable (limit + 1) (.object members)

theorem IsIntegral.isWritable {v : Value} (hv : v.IsIntegral) {limit : Nat}
    (hdepth : v.document.depth ≤ limit) : v.IsWritable limit := by
  induction hv generalizing limit with
  | null => exact .null
  | bool b => exact .bool b
  | integer hn => exact .number _
  | string text => exact .string text
  | @array elements _ ih =>
    rw [document, Document.depth, elementDocuments_eq_map] at hdepth
    -- A list counts as one level, so its elements have a limit one lower.
    obtain ⟨limit, rfl⟩ : ∃ l, limit = l + 1 := ⟨limit - 1, by omega⟩
    refine .array fun v hv => ih v hv ?_
    have := Document.depth_le_elementsDepth (List.mem_map_of_mem (f := document) hv)
    omega
  | @object members _ hsorted ih =>
    rw [document, Document.depth] at hdepth
    obtain ⟨limit, rfl⟩ : ∃ l, limit = l + 1 := ⟨limit - 1, by omega⟩
    refine .object (fun m hm => ih m hm ?_) hsorted
    have := depth_le_memberDocuments hm
    omega

/-- A value without floats is read back as it is. -/
theorem IsIntegral.reread_eq {v : Value} (hv : v.IsIntegral) : v.reread = v := by
  induction hv with
  | null => rfl
  | bool b => rfl
  | integer hn => rfl
  | string text => rfl
  | array _ ih =>
    rw [reread, rereadElements_eq_map, List.map_congr_left ih, List.map_id']
  | object _ _ ih =>
    rw [reread, rereadMembers_eq_map,
      List.map_congr_left fun m hm => congrArg (Prod.mk m.1) (ih m hm), List.map_id']

end Value

theorem readColon_append (rest : List Char) : readColon (':' :: rest) = .ok ((), rest) := rfl

/-- Elements that are each read, in the order in which they are written. -/
theorem WrittenElements.forall₂ {document : α → Document} {item : Reader β} {f : α → β}
    {xs : List α} (hitem : ∀ x ∈ xs, ∀ text, Written (document x) text → ReadAs item text (f x))
    {texts : List (List Char)} (h : WrittenElements (xs.map document) texts) :
    List.Forall₂ (ReadAs item) texts (xs.map f) := by
  induction xs generalizing texts with
  | nil =>
    cases h
    exact .nil
  | cons x xs ih =>
    obtain - | ⟨hx, hxs⟩ := h
    exact .cons (hitem x List.mem_cons_self _ hx)
      (ih (fun y hy => hitem y (List.mem_cons_of_mem _ hy)) hxs)

theorem WrittenMembers.takesIn_after {members : List (String × Value)} {texts : List (List Char)}
    (h : WrittenMembers (Value.memberDocuments members) texts)
    {Holds : List (String × Value) → σ → Prop} {done : List (String × Value)} {state : σ}
    (hstate : Holds done state)
    (hstep : ∀ before m after state, before ++ m :: after = done ++ members → Holds before state →
      m ∈ members → ∀ text, Written m.2.document text →
        ∃ next, Holds (before ++ [m]) next ∧ ∀ gap rest, Blank gap → Ends rest →
          member m.1 state (':' :: (gap ++ (text ++ rest))) = .ok (next, rest)) :
    ∃ last, Holds (done ++ members) last ∧ TakesIn member state texts last := by
  induction members generalizing done state texts with
  | nil =>
    cases h
    exact ⟨state, by simpa using hstate, .nil state⟩
  | cons m members ih =>
    obtain - | ⟨hgap, hv, hrest⟩ := h
    obtain ⟨next, hnext, hread⟩ :=
      hstep done m members state rfl hstate List.mem_cons_self _ hv
    -- The member joins those that are done, so the list of all of them stays the same.
    obtain ⟨last, hlast, htakes⟩ := ih hrest hnext
      fun before n after state heq hbefore hn =>
        hstep before n after state (by simpa using heq) hbefore (List.mem_cons_of_mem _ hn)
    exact ⟨last, by simpa using hlast, .cons (fun rest hends => hread _ rest hgap hends) htakes⟩

/-- What holds of the members taken in so far is carried on by each further member. -/
theorem WrittenMembers.takesIn {members : List (String × Value)} {texts : List (List Char)}
    (h : WrittenMembers (Value.memberDocuments members) texts)
    (Holds : List (String × Value) → σ → Prop) {state : σ} (hstate : Holds [] state)
    (hstep : ∀ before m after state, before ++ m :: after = members → Holds before state →
      m ∈ members → ∀ text, Written m.2.document text →
        ∃ next, Holds (before ++ [m]) next ∧ ∀ gap rest, Blank gap → Ends rest →
          member m.1 state (':' :: (gap ++ (text ++ rest))) = .ok (next, rest)) :
    ∃ last, Holds members last ∧ TakesIn member state texts last :=
  h.takesIn_after hstate hstep

theorem readValue_skipBlanks (limit : Nat) (text : List Char) :
    readValue limit (skipBlanks text) = readValue limit text := by
  cases limit <;> rw [readValue, readValueWith, readValueWith, skipBlanks_idem]

theorem isBlank_of_starts_number {c : Char} (hc : (c = '-' || c.isDigit) = true) :
    isBlank c = false := by
  by_contra hblank
  simp only [isBlank, Bool.not_eq_false, Bool.or_eq_true, decide_eq_true_eq] at hblank
  rcases hblank with ((rfl | rfl) | rfl) | rfl <;> exact absurd hc (by decide)

theorem readValueWith_number {nested : Option (Reader Value)} {c : Char}
    (hc : (c = '-' || c.isDigit) = true) (rest : List Char) :
    readValueWith nested (c :: rest) = (Value.number <$> readNumber) (c :: rest) := by
  have hskip : skipBlanks (c :: rest) = c :: rest :=
    skipBlanks_append blank_nil (isBlank_of_starts_number hc) rest
  rw [readValueWith, hskip]
  -- No other kind of value starts with a sign or a digit.
  split
  case h_1 heq => cases heq
  case h_8 heq =>
    cases heq
    rw [if_pos hc]
  all_goals
    rename_i heq
    rw [(List.cons.inj heq).1] at hc
    exact absurd hc (by decide)

theorem exists_readValueWith (limit : Nat) : ∃ nested, readValue limit = readValueWith nested := by
  cases limit with
  | zero => exact ⟨none, rfl⟩
  | succ limit => exact ⟨some (readValue limit), rfl⟩

/-- What the reader of numbers takes from a text is a value. -/
theorem readAs_of_readNumber {text : List Char} {n : Number} (limit : Nat)
    (hstart : ∃ c tail, text = c :: tail ∧ (c = '-' || c.isDigit) = true)
    (hread : ∀ rest, Ends rest → readNumber (text ++ rest) = .ok (n, rest)) :
    ReadAs (readValue limit) text (.number n) := by
  obtain ⟨nested, hlimit⟩ := exists_readValueWith limit
  obtain ⟨c, tail, rfl, hc⟩ := hstart
  have hclose : c ≠ ']' := by
    rintro rfl
    exact absurd hc (by decide)
  refine .of_skips (readValue_skipBlanks limit) (isBlank_of_starts_number hc) hclose ?_
  intro rest hrest
  rw [hlimit, readValueWith_number hc]
  exact Reader.map_of_ok (hread rest hrest) _

theorem FloatStyle.IsReadable.starts_text {F : Format} {style : FloatStyle} {x : Binary F}
    (h : style.IsReadable x) : ∃ c tail, (style.text x).toList = c :: tail ∧
      (c = '-' || c.isDigit) = true := by
  obtain ⟨numeral, htext, hproper, -⟩ := h
  rw [htext]
  exact hproper.starts_text

theorem Number.starts_text (n : Number) :
    ∃ c tail, n.text.toList = c :: tail ∧ (c = '-' || c.isDigit) = true := by
  cases n with
  | integer n _ =>
    rw [Number.text, toList_repr_eq_plainText]
    exact Numeral.starts_plainText (n < 0) (isWhole_toDigits n.natAbs) []
  | float x hx => exact (FloatStyle.isReadable_double hx).starts_text

theorem Number.readAs (n : Number) (limit : Nat) :
    ReadAs (readValue limit) n.text.toList (.number n.reread) := by
  refine readAs_of_readNumber limit n.starts_text fun rest hrest => ?_
  cases n with
  | integer n hn => exact readNumber_integer hn hrest
  | float x hx => exact (FloatStyle.isReadable_double hx).readNumber_text hrest

/-- A string is read back from each of its texts. -/
theorem Quotes.readAs {text : List Char} {s : String} (h : Quotes text s) (limit : Nat) :
    ReadAs (readValue limit) text (.string s) := by
  obtain ⟨nested, hlimit⟩ := exists_readValueWith limit
  obtain @⟨pieces, _, hpieces⟩ := h
  refine .of_skips (readValue_skipBlanks limit) rfl (by decide) ?_
  intro rest _
  have hread : readString (pieces.flatten ++ ['"'] ++ rest) = .ok (s, rest) :=
    readString_eq_ok_iff.2 ⟨_, .mk hpieces, rfl⟩
  rw [hlimit]
  exact Reader.map_of_ok hread _

theorem readAs_string (text : String) (limit : Nat) :
    ReadAs (readValue limit) (stringText text).toList (.string text) :=
  (quotes_stringText text).readAs limit

theorem readAs_array {limit : Nat} {texts : List (List Char)} {inside : List Char}
    (hinside : Listed texts inside) {elements : List Value}
    (h : List.Forall₂ (ReadAs (readValue limit)) texts elements) :
    ReadAs (readValue (limit + 1)) ('[' :: (inside ++ [']'])) (.array elements) := by
  refine .of_skips (readValue_skipBlanks _) rfl (by decide) ?_
  intro rest _
  rw [List.append_assoc]
  exact Reader.map_of_ok (readList_listed hinside h rest) _

/-- Members in key order are put behind those that are there already. -/
theorem readAs_object {limit : Nat} {texts : List (List Char)} {inside : List Char}
    (hinside : Listed texts inside) {members : List (String × Value)}
    (hsorted : members.Pairwise (fun a b => a.1 < b.1))
    (hwritten : WrittenMembers (Value.memberDocuments members) texts)
    (h : ∀ m ∈ members, ∀ text, Written m.2.document text →
      ReadAs (readValue limit) text m.2.reread) :
    ReadAs (readValue (limit + 1)) ('{' :: (inside ++ ['}']))
      (.object (members.map fun m => (m.1, m.2.reread))) := by
  refine .of_skips (readValue_skipBlanks _) rfl (by decide) ?_
  intro rest _
  -- The members so far are the state: each new key is greater than all of theirs.
  have htakes : ∃ last, members.map (fun m => (m.1, m.2.reread)) = last ∧
      TakesIn (fun key members => do
        readColon
        return SortedMap.insertEntry key (← readValue limit) members) [] texts last := by
    refine hwritten.takesIn (fun before state => before.map (fun m => (m.1, m.2.reread)) = state)
      rfl ?_
    rintro before ⟨key, v⟩ after _ hsplit rfl hv text htext
    refine ⟨_, rfl, fun gap rest hgap hends => ?_⟩
    have hlast : ∀ e ∈ before.map (fun m => (m.1, m.2.reread)), e.1 < key :=
      List.forall_mem_map.2 (SortedMap.lt_of_split hsorted hsplit)
    rw [Reader.bind_of_ok (readColon_append _),
      Reader.bind_of_ok ((h _ hv _ htext).reads hgap hends),
      SortedMap.insertEntry_of_last v.reread hlast, List.map_append]
    rfl
  obtain ⟨_, rfl, htakes⟩ := htakes
  rw [List.append_assoc]
  exact Reader.map_of_ok (readObject_listed hinside htakes rest) _

/-- In every layout, a value that nests no deeper than the limit is read, its floats as their own
texts are read. -/
theorem Value.IsWritable.readAs {v : Value} {limit : Nat} (hv : v.IsWritable limit)
    {text : List Char} (h : Written v.document text) : ReadAs (readValue limit) text v.reread := by
  have hskips := readValue_skipBlanks
  induction hv generalizing text with
  | @null limit =>
    obtain ⟨⟩ := h
    exact .of_skips (hskips limit) rfl (by decide) fun rest _ => by cases limit <;> rfl
  | @bool limit b =>
    cases b with
    | true =>
      obtain ⟨⟩ := h
      exact .of_skips (hskips limit) rfl (by decide) fun rest _ => by cases limit <;> rfl
    | false =>
      obtain ⟨⟩ := h
      exact .of_skips (hskips limit) rfl (by decide) fun rest _ => by cases limit <;> rfl
  | @number limit n =>
    obtain ⟨⟩ := h
    exact n.readAs limit
  | @string limit s =>
    obtain ⟨⟩ := h
    exact readAs_string s limit
  | array _ ih =>
    rw [document, elementDocuments_eq_map] at h
    rw [reread, rereadElements_eq_map]
    cases h with
    | array h hinside => exact readAs_array hinside (h.forall₂ fun v hv text htext => ih v hv htext)
  | object _ hsorted ih =>
    rw [reread, rereadMembers_eq_map]
    cases h with
    | object h hinside =>
      exact readAs_object hinside hsorted h fun m hm text htext => ih m hm htext

end Json

end CellularShader
