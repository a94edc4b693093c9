/- # Where patterns occur

A pattern that lacks some character occurs before or behind each place where a text has that
character, and never across it. A text that is put together with such characters can therefore be
searched piece by piece, and a pattern that occurs once in one piece and in no other occurs once in
the whole.
-/

import Mathlib.Data.List.Infix

namespace CellularShader

namespace Text

variable {p q a b l s : List Char} {c : Char} {i j : Nat}

/-! ## Occurrences -/

theorem infix_iff_exists_drop : p <:+: l ↔ ∃ j, p <+: l.drop j := by
  constructor
  · rintro ⟨s, t, rfl⟩
    exact ⟨s.length, t, by simp⟩
  · rintro ⟨j, h⟩
    exact h.isInfix.trans (List.drop_suffix j l).isInfix

/-- A pattern that starts a text either ends within its first part or goes on behind that. -/
theorem prefix_or_prefix_of_append (h : p <+: a ++ b) : p <+: a ∨ a <+: p :=
  List.prefix_or_prefix_of_prefix h (List.prefix_append a b)

/-- A character that a pattern has at most at its end can only end the occurrences that reach it. -/
theorem prefix_of_append_cons (hc : c ∉ p.dropLast) (h : p <+: a ++ c :: b) : p <+: a ++ [c] := by
  rw [List.append_cons] at h
  rcases prefix_or_prefix_of_append h with h | ⟨t, rfl⟩
  · exact h
  · rcases List.eq_nil_or_concat t with rfl | ⟨t, d, rfl⟩
    · rw [List.append_nil]
    · exact absurd (by simp [← List.append_assoc]) hc

/-- An occurrence in joined text ends at the joining character at the latest or starts behind it. -/
theorem prefix_drop_of_append_cons (hc : c ∉ p.dropLast) (h : p <+: (a ++ c :: b).drop j) :
    p <+: (a ++ [c]).drop j ∨ ∃ k, j = a.length + 1 + k ∧ p <+: b.drop k := by
  rcases Nat.lt_or_ge a.length j with hj | hj
  · obtain ⟨k, rfl⟩ := Nat.exists_eq_add_of_le hj
    refine .inr ⟨k, rfl, ?_⟩
    rwa [List.append_cons, ← List.drop_drop, List.drop_left' (by simp)] at h
  · rw [List.drop_append_of_le_length hj] at h ⊢
    exact .inl (prefix_of_append_cons hc h)

theorem prefix_drop_of_concat (hc : c ∉ p) (h : p <+: (a ++ [c]).drop j) : p <+: a.drop j := by
  rcases Nat.lt_or_ge a.length j with hj | hj
  · have hend : (a ++ [c]).length ≤ j := by
      rw [List.length_append, List.length_singleton]
      omega
    rw [List.drop_eq_nil_of_le hend] at h
    exact h.trans List.nil_prefix
  · rw [List.drop_append_of_le_length hj, List.prefix_concat_iff] at h
    rcases h with rfl | h
    · exact absurd (by simp) hc
    · exact h

theorem infix_of_append_cons (hc : c ∉ p.dropLast) (h : p <:+: a ++ c :: b) :
    p <:+: a ++ [c] ∨ p <:+: b := by
  obtain ⟨j, hj⟩ := infix_iff_exists_drop.1 h
  rcases prefix_drop_of_append_cons hc hj with hj | ⟨k, -, hk⟩
  · exact .inl (infix_iff_exists_drop.2 ⟨j, hj⟩)
  · exact .inr (infix_iff_exists_drop.2 ⟨k, hk⟩)

/-- A literal is searched through its characters. -/
theorem not_infix_ofList {p l : List Char} (h : ¬p <:+: l) :
    ¬(String.ofList p).toList <:+: (String.ofList l).toList := by
  rwa [String.toList_ofList, String.toList_ofList]

theorem infix_intercalate {α : Type} {x s : List α} {xs : List (List α)} (h : x ∈ xs) :
    x <:+: s.intercalate xs := by
  induction xs with
  | nil => cases h
  | cons y ys ih =>
    cases ys with
    | nil => rw [List.mem_singleton.1 h, List.intercalate_singleton]
    | cons z zs =>
      rw [List.intercalate_cons_cons]
      rcases List.mem_cons.1 h with rfl | h
      · rw [List.append_assoc]
        exact (List.prefix_append _ _).isInfix
      · exact (ih h).trans (List.suffix_append _ _).isInfix

/-- What a list of joined lists contains comes from the separator or from one of the lists. -/
theorem mem_or_exists_of_mem_intercalate {α : Type} {separator : List α} {x : α}
    {lists : List (List α)} (h : x ∈ separator.intercalate lists) :
    x ∈ separator ∨ ∃ l ∈ lists, x ∈ l := by
  induction lists with
  | nil => simp at h
  | cons l lists ih =>
    cases lists with
    | nil => exact .inr ⟨l, List.mem_cons_self, by simpa using h⟩
    | cons k lists =>
      rw [List.intercalate_cons_cons, List.append_assoc, List.mem_append, List.mem_append] at h
      rcases h with h | h | h
      · exact .inr ⟨l, List.mem_cons_self, h⟩
      · exact .inl h
      · exact (ih h).imp_right fun hlater => by
          obtain ⟨m, hm, hx⟩ := hlater
          exact ⟨m, List.mem_cons_of_mem l hm, hx⟩

/-! ## What cannot be part of an occurrence -/

/-- Whether a pattern cannot start within a text, however the text goes on. -/
def Clear (p a : List Char) : Prop := ∀ s ∈ a.tails, s ≠ [] → ¬s <+: p ∧ ¬p <+: s

instance : Decidable (Clear p a) := inferInstanceAs (Decidable (∀ s ∈ a.tails, _))

theorem Clear.infix_right (ha : Clear p a) (h : p <:+: a ++ b) : p <:+: b := by
  induction a with
  | nil => exact h
  | cons c a ih =>
    rw [Clear, List.tails_cons, List.forall_mem_cons] at ha
    obtain ⟨hlonger, hshorter⟩ := ha.1 (List.cons_ne_nil c a)
    rw [List.cons_append, List.infix_cons_iff, ← List.cons_append] at h
    rcases h with h | h
    · exact ((prefix_or_prefix_of_append h).elim hshorter hlonger).elim
    · exact ih ha.2 h

theorem Clear.of_suffix (h : Clear p b) (hab : a <:+ b) : Clear p a :=
  fun s hs => h s ((List.mem_tails _ _).2 (((List.mem_tails _ _).1 hs).trans hab))

theorem clear_of_head (hp : p ≠ []) (ha : ∀ d ∈ a, p.head? ≠ some d) : Clear p a := by
  obtain ⟨c, p, rfl⟩ := List.exists_cons_of_ne_nil hp
  intro s hs hne
  obtain ⟨d, s, rfl⟩ := List.exists_cons_of_ne_nil hne
  have hd : d ∈ a := ((List.mem_tails _ _).1 hs).subset List.mem_cons_self
  have hcd : c ≠ d := fun heq => ha d hd (congrArg some heq)
  simp [List.cons_prefix_cons, hcd, hcd.symm]

/-- Text without the last character of a pattern cannot end its occurrences. -/
theorem infix_of_append_right (hp : p ≠ []) (hb : ∀ d ∈ b, p.getLast? ≠ some d)
    (h : p <:+: a ++ b) : p <:+: a := by
  rw [← List.reverse_infix, List.reverse_append] at h
  have hclear : Clear p.reverse b.reverse :=
    clear_of_head (by simpa using hp) (by simpa [List.head?_reverse] using hb)
  exact List.reverse_infix.1 (hclear.infix_right h)

/-- Whether no occurrence of a pattern reaches across a text or into it. -/
def Separates (s p : List Char) : Prop := ∀ a b, p <:+: a ++ (s ++ b) → p <:+: a ∨ p <:+: b

/-- A text with a character that a pattern lacks separates, if no character of it can start or end
the pattern. -/
theorem separates_of_mem (hc : c ∈ s) (hcp : c ∉ p)
    (hedges : ∀ d ∈ s, p.head? ≠ some d ∧ p.getLast? ≠ some d) : Separates s p := by
  intro a b h
  rcases eq_or_ne p [] with rfl | hp
  · exact .inl List.nil_infix
  obtain ⟨x, y, rfl⟩ := List.append_of_mem hc
  rw [List.append_assoc, List.cons_append, ← List.append_assoc] at h
  rcases infix_of_append_cons (hcp ∘ List.mem_of_mem_dropLast) h with h | h
  · rw [List.append_assoc] at h
    exact .inl (infix_of_append_right hp (fun d hd => (hedges d (by grind)).2) h)
  · exact .inr ((clear_of_head hp fun d hd => (hedges d (by simp [hd])).1).infix_right h)

theorem Separates.infix_left (hs : Separates s p) (h : p <:+: a ++ s) : p <:+: a := by
  rw [← List.append_nil s] at h
  rcases hs a [] h with h | h
  · exact h
  · rw [List.infix_nil.1 h]
    exact List.nil_infix

theorem Separates.infix_right (hs : Separates s p) (h : p <:+: s ++ b) : p <:+: b := by
  rcases hs [] b h with h | h
  · rw [List.infix_nil.1 h]
    exact List.nil_infix
  · exact h

/-- In a list with separators, an occurrence lies in an item. -/
theorem Separates.exists_of_intercalate (hs : Separates s p) (hp : p ≠ []) {xs : List (List Char)}
    (h : p <:+: s.intercalate xs) : ∃ x ∈ xs, p <:+: x := by
  induction xs with
  | nil => exact absurd (List.infix_nil.1 h) hp
  | cons x xs ih =>
    cases xs with
    | nil => exact ⟨x, List.mem_cons_self, by simpa using h⟩
    | cons y ys =>
      rw [List.intercalate_cons_cons, List.append_assoc] at h
      rcases hs _ _ h with h | h
      · exact ⟨x, List.mem_cons_self, h⟩
      · obtain ⟨z, hz, h⟩ := ih h
        exact ⟨z, List.mem_cons_of_mem x hz, h⟩

/-! ## Single occurrences -/

/-- Whether a pattern stands at one position of a text and at no other. -/
def OnlyAt (p l : List Char) (i : Nat) : Prop := ∀ j, p <+: l.drop j ↔ j = i

theorem onlyAt_zero (hp : p <+: l) (h : ¬p <:+: l.tail) : OnlyAt p l 0 := by
  intro j
  cases j with
  | zero => simpa using hp
  | succ j =>
    simp only [← List.drop_tail, Nat.add_one_ne_zero, iff_false]
    exact fun h' => h (infix_iff_exists_drop.2 ⟨j, h'⟩)

theorem OnlyAt.append (h : OnlyAt p l i) (hc : c ∉ p) (hb : ¬p <:+: b) :
    OnlyAt p (l ++ c :: b) i := by
  intro j
  constructor
  · intro hj
    rcases prefix_drop_of_append_cons (hc ∘ List.mem_of_mem_dropLast) hj with hj | ⟨k, -, hk⟩
    · exact (h j).1 (prefix_drop_of_concat hc hj)
    · exact absurd (infix_iff_exists_drop.2 ⟨k, hk⟩) hb
  · rintro rfl
    rw [List.drop_append]
    exact ((h j).2 rfl).trans (List.prefix_append _ _)

theorem OnlyAt.behind (h : OnlyAt p l i) (hc : c ∉ p) (ha : ¬p <:+: a) :
    OnlyAt p (a ++ c :: l) (a.length + 1 + i) := by
  intro j
  constructor
  · intro hj
    rcases prefix_drop_of_append_cons (hc ∘ List.mem_of_mem_dropLast) hj with hj | ⟨k, rfl, hk⟩
    · exact absurd (infix_iff_exists_drop.2 ⟨j, prefix_drop_of_concat hc hj⟩) ha
    · rw [(h k).1 hk]
  · rintro rfl
    rw [List.append_cons, ← List.drop_drop, List.drop_left' (by simp)]
    exact (h i).2 rfl

/-- A longer pattern at the only position of a shorter one has no other position. -/
theorem OnlyAt.extend (h : OnlyAt p l i) (hpq : p <+: q) (hq : q <+: l.drop i) :
    OnlyAt q l i := by
  intro j
  constructor
  · exact fun hj => (h j).1 (hpq.trans hj)
  · rintro rfl
    exact hq

end Text

end CellularShader
