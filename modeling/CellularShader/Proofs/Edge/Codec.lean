/- # Policies as texts

A policy is read from the text of a string, which names it, or of a number, which becomes its
expression, and from no other text. Its own text is that of a string. So a policy comes back from
its text unless it is an expression that spells the name of another policy, and no such policy is
ever made from a text or a number.
-/

import CellularShader.Proofs.Configuration

namespace CellularShader

open Json (Blank Ends Numeral Quotes ReadAs Reader)

/-! ## Numerals out of range -/

namespace Json.Numeral

theorem scale_eq_error {x : Double} {exponent : Int} {fault : Fault}
    (h : scale x exponent = .error fault) : fault = .numberOutOfRange := by
  unfold scale at h
  simp only at h
  -- Two branches refuse: the power of ten is too great, or the product is.
  split_ifs at h
  · cases h
    rfl
  · cases h
    rfl

theorem magnitude_eq_error {numeral : Numeral} {fault : Fault}
    (h : numeral.magnitude = .error fault) : fault = .numberOutOfRange := by
  unfold magnitude at h
  simp only at h
  split at h
  · exact scale_eq_error h
  · split_ifs at h
    · exact scale_eq_error h
    · exact scale_eq_error h
    · cases h
      rfl

/-- A numeral has a value unless it is out of range. -/
theorem value_eq_error {numeral : Numeral} {fault : Fault} (h : numeral.value = .error fault) :
    fault = .numberOutOfRange := by
  unfold value at h
  split at h
  case h_1 => cases h
  case h_2 =>
    cases hmagnitude : numeral.magnitude with
    | ok x =>
      simp only [hmagnitude, bind, Except.bind] at h
      split at h <;> cases h
      rfl
    | error fault =>
      rw [hmagnitude] at h
      cases h
      exact magnitude_eq_error hmagnitude

end Json.Numeral

namespace Edge

/-! ## Reading -/

/-- The texts of a policy: of a string that names it, or of a number in range that is written as its
expression. -/
inductive Spells : List Char → Edge → Prop
  | name {body : List Char} {s : String} (h : Quotes body s) : Spells body (ofText s)
  | number {body : List Char} {numeral : Numeral} {n : Json.Number} (h : numeral.Spells body)
      (hvalue : numeral.value = .ok n) : Spells body (literal n.text)

theorem Spells.readAs {body : List Char} {edge : Edge} (h : Spells body edge) (limit : Nat) :
    ReadAs (read limit) body edge := by
  have hedge {v : Json.Value} (hv : ReadAs (Json.readValue limit) body v)
      (hofValue : ofValue v = .ok edge) : ReadAs (read limit) body edge := by
    refine ⟨hv.starts, fun hgap hrest => ?_⟩
    rw [read, Reader.bind_of_ok (hv.reads hgap hrest)]
    exact Reader.lift_of_ok hofValue _
  cases h with
  | name h => exact hedge (h.readAs limit) rfl
  | number h hvalue =>
    refine hedge (Json.readAs_of_readNumber limit h.starts ?_) rfl
    exact fun rest hrest => h.readNumber hvalue hrest

/-- A policy is read from nothing but its texts. -/
theorem exists_spells_of_read {limit : Nat} {text rest : List Char} {edge : Edge}
    (h : read limit text = .ok (edge, rest)) :
    ∃ body, Spells body edge ∧ Json.skipBlanks text = body ++ rest := by
  obtain ⟨v, _, hread, hlift⟩ := Reader.exists_of_bind_ok h
  obtain ⟨hvalue, rfl⟩ := Reader.eq_of_lift_ok hlift
  obtain ⟨nested, hlimit⟩ := Json.exists_readValueWith limit
  rw [hlimit, Json.readValueWith] at hread
  split at hread
  case h_1 => cases hread
  case h_5 heq =>
    obtain ⟨s, hs, rfl⟩ := Reader.exists_of_map_ok hread
    obtain ⟨body, hbody, hsplit⟩ := Json.readString_eq_ok_iff.1 hs
    cases hvalue
    exact ⟨body, .name hbody, heq.trans hsplit⟩
  case h_8 heq =>
    split_ifs at hread
    obtain ⟨n, hnumber, rfl⟩ := Reader.exists_of_map_ok hread
    obtain ⟨numeral, body, hbody, hn, hsplit⟩ := Json.exists_of_readNumber hnumber
    cases hvalue
    exact ⟨body, .number hbody hn, heq.trans hsplit⟩
  -- Any other value is read to its end, but it is no policy.
  case h_6 | h_7 =>
    split at hread
    · cases hread
    · obtain ⟨_, -, rfl⟩ := Reader.exists_of_map_ok hread
      cases hvalue
  all_goals
    obtain ⟨_, -, rfl⟩ := Reader.exists_of_map_ok hread
    cases hvalue

theorem parse_eq_ok_iff {text : String} {edge : Edge} :
    parse text = .ok edge ↔ ∃ lead body trail, Blank lead ∧ Blank trail ∧ Spells body edge ∧
      text.toList = lead ++ (body ++ trail) := by
  rw [parse, Json.readText_eq_ok_iff]
  constructor
  · rintro ⟨trail, hread, htrail⟩
    obtain ⟨body, hbody, hskip⟩ := exists_spells_of_read hread
    have hlead : Blank (text.toList.takeWhile Json.isBlank) := List.all_eq_true.1 List.all_takeWhile
    refine ⟨_, body, trail, hlead, htrail, hbody, ?_⟩
    rw [← hskip]
    exact List.takeWhile_append_dropWhile.symm
  · rintro ⟨lead, body, trail, hlead, htrail, hbody, htext⟩
    rw [htext]
    exact ⟨trail, (hbody.readAs _).reads hlead htrail.ends, htrail⟩

/-! ## Portable policies -/

theorem text_ofText (t : String) : (ofText t).text = t := by
  unfold ofText
  split_ifs with hwrap hclamp
  · exact hwrap.symm
  · exact hclamp.symm
  · rfl

theorem isPortable_ofText (t : String) : (ofText t).IsPortable := by
  unfold ofText
  split_ifs with hwrap hclamp
  · exact ⟨by decide, by decide⟩
  · exact ⟨by decide, by decide⟩
  · exact ⟨fun h => hwrap (Edge.literal.inj h), fun h => hclamp (Edge.literal.inj h)⟩

/-- The text of a number names no policy, since it starts with a sign or a digit. -/
theorem isPortable_of_starts {text : String}
    (h : ∃ c tail, text.toList = c :: tail ∧ (c = '-' || c.isDigit) = true) :
    (literal text).IsPortable := by
  obtain ⟨c, tail, htext, hc⟩ := h
  have hname {name : String} {d : Char} {rest : List Char} (hlist : name.toList = d :: rest)
      (hd : (d = '-' || d.isDigit) = false) : literal text ≠ literal name := by
    intro heq
    rw [literal.inj heq, hlist] at htext
    rw [← (List.cons.inj htext).1, hd] at hc
    cases hc
  exact ⟨hname rfl (by decide), hname rfl (by decide)⟩

theorem Spells.isPortable {body : List Char} {edge : Edge} (h : Spells body edge) :
    edge.IsPortable := by
  cases h with
  | name => exact isPortable_ofText _
  | number => exact isPortable_of_starts (Json.Number.starts_text _)

theorem isPortable_of_read {limit : Nat} {text rest : List Char} {edge : Edge}
    (h : read limit text = .ok (edge, rest)) : edge.IsPortable := by
  obtain ⟨body, hbody, -⟩ := exists_spells_of_read h
  exact hbody.isPortable

theorem isPortable_of_parse {text : String} {edge : Edge} (h : parse text = .ok edge) :
    edge.IsPortable := by
  obtain ⟨rest, hread, -⟩ := Json.readText_eq_ok_iff.1 h
  exact isPortable_of_read hread

theorem isPortable_ofInt (n : Int) : (ofInt n).IsPortable := by
  refine isPortable_of_starts ?_
  rw [Literal.ofInt, Json.toList_repr_eq_plainText]
  exact Numeral.starts_plainText (n < 0) (isWhole_toDigits n.natAbs) []

theorem parse_document_iff (edge : Edge) :
    parse edge.document.compact = .ok edge ↔ edge.IsPortable := by
  constructor
  · exact isPortable_of_parse
  · intro h
    exact (h.readAs Json.nestingLimit).readText

/-- A policy is named by its text, and it comes back from its JSON text exactly when it is portable.
All policies that are made from texts, integers and JSON texts are. The JSON texts that are read are
those of strings and of numbers in range, with blanks around them. -/
theorem parse_inverts_document :
    (∀ t, (ofText t).text = t) ∧
    (∀ edge : Edge, parse edge.document.compact = .ok edge ↔
      edge ≠ literal "wrap" ∧ edge ≠ literal "clamp") ∧
    (∀ t, (ofText t).IsPortable) ∧ (∀ n, (ofInt n).IsPortable) ∧
    (∀ text edge, parse text = .ok edge → edge.IsPortable) ∧
    (∀ text edge, parse text = .ok edge ↔ ∃ lead body trail, Blank lead ∧ Blank trail ∧
      Spells body edge ∧ text.toList = lead ++ (body ++ trail)) ∧
    ∀ numeral : Numeral, (∃ n, numeral.value = .ok n) ∨
      numeral.value = .error .numberOutOfRange := by
  refine ⟨text_ofText, parse_document_iff, isPortable_ofText, isPortable_ofInt,
    fun text edge => isPortable_of_parse, fun text edge => parse_eq_ok_iff, ?_⟩
  intro numeral
  cases hvalue : numeral.value with
  | ok n => exact .inl ⟨n, rfl⟩
  | error fault => exact .inr (by rw [Numeral.value_eq_error hvalue])

theorem parse_inverts_document_escaped :
    parse " \"wr\\u0061p\"" = .ok wrap ∧ wrap.IsPortable := by
  obtain ⟨-, -, -, -, hportable, hparse, -⟩ := parse_inverts_document
  have hplain (c : Char) (hquote : c ≠ '"') (hslash : c ≠ '\\') (hcontrol : ¬c.toNat < 0x20) :
      Json.Spells [c] c := .plain hquote hslash hcontrol
  have hquotes : Quotes "\"wr\\u0061p\"".toList "wrap" :=
    @Quotes.mk [['w'], ['r'], ['\\', 'u', '0', '0', '6', '1'], ['p']] "wrap"
      (.cons (hplain 'w' (by decide) (by decide) (by decide)) <|
        .cons (hplain 'r' (by decide) (by decide) (by decide)) <| .cons (.code rfl) <|
        .cons (hplain 'p' (by decide) (by decide) (by decide)) .nil)
  have hread : parse " \"wr\\u0061p\"" = .ok wrap := by
    refine (hparse _ _).2 ⟨[' '], _, [], ?_, Json.blank_nil, .name hquotes, by simp⟩
    simp [Blank, Json.isBlank]
  exact ⟨hread, hportable _ _ hread⟩

end Edge

end CellularShader
