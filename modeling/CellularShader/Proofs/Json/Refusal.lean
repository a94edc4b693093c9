/- # Faults inside lists and objects

A list is refused with the fault of its first element that is refused, and an object with the fault
of its first member that is not taken in. What stands before is read, and what stands behind is not
looked at.
-/

import CellularShader.Proofs.Json.Nesting

namespace CellularShader

namespace Json

variable {α σ : Type} {fault : Fault}

theorem Reader.bind_of_error {β : Type} {reader : Reader α} {text : List Char}
    (h : reader text = .error fault) (next : α → Reader β) :
    (reader >>= next) text = .error fault := by
  simp [bind, StateT.bind, h, Except.bind]

/-- The reader fails at the text, whatever stands behind it. -/
structure Refuses (reader : Reader α) (text : List Char) (fault : Fault) : Prop where
  starts : Starts text
  fails {gap rest : List Char} (hgap : Blank gap) (hrest : Ends rest) :
    reader (gap ++ (text ++ rest)) = .error fault

theorem Refuses.error {reader : Reader α} {text : List Char} (h : Refuses reader text fault)
    {rest : List Char} (hrest : Ends rest) : reader (text ++ rest) = .error fault :=
  h.fails blank_nil hrest

theorem Refuses.readText {reader : Reader α} {text : String}
    (h : Refuses reader text.toList fault) : Json.readText reader text = .error fault := by
  have hread : reader text.toList = .error fault := by simpa using h.error ends_nil
  rw [Json.readText, hread]
  rfl

/-- A reader that passes over blanks first has to be looked at without them only. -/
theorem Refuses.of_skips {reader : Reader α} {c : Char} {tail : List Char}
    (hskips : ∀ text, reader (skipBlanks text) = reader text) (hc : isBlank c = false)
    (hclose : c ≠ ']') (h : ∀ rest, Ends rest → reader (c :: (tail ++ rest)) = .error fault) :
    Refuses reader (c :: tail) fault where
  starts := ⟨c, tail, rfl, hc, hclose⟩
  fails {gap rest} hgap hrest := by
    rw [← hskips, List.cons_append, skipBlanks_append hgap hc, h rest hrest]

/-! ## Lists -/

section

variable {item : Reader α} {first : Bool} {input piece behind bound : List Char}
  {before after : List (List Char)} {x : α} {xs : List α}

theorem readElements_of_refused (hpiece : Refuses item piece fault)
    (hnext : nextElement first input = .ok (true, piece ++ behind)) (hends : Ends behind)
    (b : Char) : readElements item (b :: bound) first input = .error fault := by
  rw [readElements, Reader.bind_of_ok hnext, if_pos rfl,
    Reader.bind_of_error (hpiece.error hends)]

theorem readElements_of_refused_behind (hpiece : ReadAs item piece x)
    (hnext : nextElement first input = .ok (true, piece ++ behind)) (hends : Ends behind)
    (hrest : readElements item bound false behind = .error fault) (b : Char) :
    readElements item (b :: bound) first input = .error fault := by
  rw [readElements, Reader.bind_of_ok hnext, if_pos rfl, Reader.bind_of_ok (hpiece.ok hends),
    Reader.bind_of_error hrest]

theorem readElements_following_of_refused (hbefore : List.Forall₂ (ReadAs item) before xs)
    (hpiece : Refuses item piece fault) {text : List Char}
    (h : Following (before ++ piece :: after) text) (hbound : before.length < bound.length)
    (rest : List Char) :
    readElements item bound false (text ++ ']' :: rest) = .error fault := by
  have hclose : endsValue ']' = true := rfl
  induction hbefore generalizing text bound with
  | nil =>
    cases bound with
    | nil => simp at hbound
    | cons b bound =>
      obtain ⟨behind, h', hnext⟩ := h.nextElement hpiece.starts
      exact readElements_of_refused hpiece (hnext _) (h'.ends hclose rest) b
  | cons helement _ ih =>
    cases bound with
    | nil => simp at hbound
    | cons b bound =>
      obtain ⟨behind, h', hnext⟩ := h.nextElement helement.starts
      exact readElements_of_refused_behind helement (hnext _) (h'.ends hclose rest)
        (ih h' (Nat.lt_of_succ_lt_succ hbound)) b

theorem readElements_listed_of_refused (hbefore : List.Forall₂ (ReadAs item) before xs)
    (hpiece : Refuses item piece fault) {inside : List Char}
    (h : Listed (before ++ piece :: after) inside) (hbound : before.length < bound.length)
    (rest : List Char) :
    readElements item bound true (inside ++ ']' :: rest) = .error fault := by
  have hclose : endsValue ']' = true := rfl
  cases bound with
  | nil => simp at hbound
  | cons b bound =>
    cases hbefore with
    | nil =>
      obtain ⟨behind, h', hnext⟩ := h.nextElement hpiece.starts
      exact readElements_of_refused hpiece (hnext _) (h'.ends hclose rest) b
    | cons helement hbefore =>
      obtain ⟨behind, h', hnext⟩ := h.nextElement helement.starts
      have hrest := readElements_following_of_refused hbefore hpiece h'
        (Nat.lt_of_succ_lt_succ hbound) rest
      exact readElements_of_refused_behind helement (hnext _) (h'.ends hclose rest) hrest b

/-- A list is refused with the fault of the element behind those that are read. -/
theorem readList_of_refused (hbefore : List.Forall₂ (ReadAs item) before xs)
    (hpiece : Refuses item piece fault) {inside : List Char}
    (h : Listed (before ++ piece :: after) inside) (rest : List Char) :
    readList item (inside ++ ']' :: rest) = .error fault := by
  have hne : (before ++ piece :: after).head? ≠ some [] := by
    cases hbefore with
    | nil =>
      obtain ⟨c, tail, rfl, -⟩ := hpiece.starts
      simp
    | cons helement =>
      obtain ⟨c, tail, rfl, -⟩ := helement.starts
      simp
  have hbound : before.length < (inside ++ ']' :: rest).length := by
    have := h.length_le hne
    simp only [List.length_append, List.length_cons] at this ⊢
    omega
  rw [readList, Reader.bind_of_error (readElements_listed_of_refused hbefore hpiece h hbound rest)]

end

/-! ## Objects -/

section

variable {member : String → σ → Reader σ} {first : Bool} {key : String}
  {input gap text behind bound : List Char} {before after : List (List Char)} {state next : σ}

theorem readMembers_of_refused
    (hnext : nextKey first input =
      .ok (true, escaped key.toList ++ '"' :: ':' :: (gap ++ (text ++ behind))))
    (hmember : member key state (':' :: (gap ++ (text ++ behind))) = .error fault) (b : Char) :
    readMembers member (b :: bound) first state input = .error fault :=
  (readMembers_of_nextKey hnext state b bound).trans (Reader.bind_of_error hmember _)

theorem readMembers_following_of_refused (hbefore : TakesIn member state before next)
    (hmember : ∀ rest, Ends rest → member key next (':' :: (gap ++ (text ++ rest))) = .error fault)
    {inside : List Char} (h : Following (before ++ memberText key gap text :: after) inside)
    (hbound : before.length < bound.length) (rest : List Char) :
    readMembers member bound false state (inside ++ '}' :: rest) = .error fault := by
  have hclose : endsValue '}' = true := rfl
  induction hbefore generalizing inside bound with
  | nil state =>
    cases bound with
    | nil => simp at hbound
    | cons b bound =>
      obtain ⟨behind, h', hnext⟩ := h.nextKey
      exact readMembers_of_refused (hnext _) (hmember _ (h'.ends hclose rest)) b
  | cons htaken _ ih =>
    cases bound with
    | nil => simp at hbound
    | cons b bound =>
      obtain ⟨behind, h', hnext⟩ := h.nextKey
      have hrest := ih hmember h' (Nat.lt_of_succ_lt_succ hbound)
      exact (readMembers_of_next (hnext _) (htaken _ (h'.ends hclose rest)) b bound).trans hrest

theorem readMembers_listed_of_refused (hbefore : TakesIn member state before next)
    (hmember : ∀ rest, Ends rest → member key next (':' :: (gap ++ (text ++ rest))) = .error fault)
    {inside : List Char} (h : Listed (before ++ memberText key gap text :: after) inside)
    (hbound : before.length < bound.length) (rest : List Char) :
    readMembers member bound true state (inside ++ '}' :: rest) = .error fault := by
  have hclose : endsValue '}' = true := rfl
  cases bound with
  | nil => simp at hbound
  | cons b bound =>
    cases hbefore with
    | nil =>
      obtain ⟨behind, h', hnext⟩ := h.nextKey
      exact readMembers_of_refused (hnext _) (hmember _ (h'.ends hclose rest)) b
    | cons htaken hbefore =>
      obtain ⟨behind, h', hnext⟩ := h.nextKey
      have hrest := readMembers_following_of_refused hbefore hmember h'
        (Nat.lt_of_succ_lt_succ hbound) rest
      exact (readMembers_of_next (hnext _) (htaken _ (h'.ends hclose rest)) b bound).trans hrest

/-- An object is refused with the fault of the member behind those that are taken in. -/
theorem readObject_of_refused (hbefore : TakesIn member state before next)
    (hmember : ∀ rest, Ends rest → member key next (':' :: (gap ++ (text ++ rest))) = .error fault)
    {inside : List Char} (h : Listed (before ++ memberText key gap text :: after) inside)
    (rest : List Char) : readObject member state (inside ++ '}' :: rest) = .error fault := by
  have hne : (before ++ memberText key gap text :: after).head? ≠ some [] := by
    cases hbefore <;> simp [memberText, toList_stringText]
  have hbound : before.length < (inside ++ '}' :: rest).length := by
    have := h.length_le hne
    simp only [List.length_append, List.length_cons] at this ⊢
    omega
  exact readMembers_listed_of_refused hbefore hmember h hbound rest

end

end Json

end CellularShader
