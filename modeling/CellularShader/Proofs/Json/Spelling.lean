/- # The ways to write a string

Inside a string a character stands for itself or is escaped: by a letter, by its code, or by two
codes when it lies beyond the first plane. A reader takes a string from every text that spells its
characters one after the other, and from no other text. The text that is written for a string is one
of these.
-/

import CellularShader.Proofs.Json.Layout
import Mathlib.Data.List.Forall2
import Mathlib.Tactic.Ring

namespace CellularShader

namespace Json

/-! ## Readers -/

namespace Reader

variable {α β : Type} {reader : Reader α} {text rest : List Char} {x : α}

theorem bind_of_ok (h : reader text = .ok (x, rest)) (next : α → Reader β) :
    (reader >>= next) text = next x rest := by
  simp [bind, StateT.bind, h, Except.bind]

theorem map_of_ok (h : reader text = .ok (x, rest)) (f : α → β) :
    (f <$> reader) text = .ok (f x, rest) := by
  simp [Functor.map, StateT.map, h, bind, Except.bind, pure, Except.pure]

theorem lift_of_ok {result : Except Fault α} (h : result = .ok x) (text : List Char) :
    (liftM result : Reader α) text = .ok (x, text) := by
  subst h
  rfl

theorem exists_of_bind_ok {next : α → Reader β} {y : β}
    (h : (reader >>= next) text = .ok (y, rest)) :
    ∃ x middle, reader text = .ok (x, middle) ∧ next x middle = .ok (y, rest) := by
  cases hreader : reader text with
  | error fault =>
    simp [bind, StateT.bind, hreader, Except.bind] at h
  | ok result =>
    refine ⟨result.1, result.2, rfl, ?_⟩
    simpa [bind, StateT.bind, hreader, Except.bind] using h

theorem exists_of_map_ok {f : α → β} {y : β} (h : (f <$> reader) text = .ok (y, rest)) :
    ∃ x, reader text = .ok (x, rest) ∧ f x = y := by
  rw [map_eq_pure_bind] at h
  obtain ⟨x, middle, hreader, hpure⟩ := exists_of_bind_ok h
  cases hpure
  exact ⟨x, hreader, rfl⟩

theorem eq_of_lift_ok {result : Except Fault α}
    (h : (liftM result : Reader α) text = .ok (x, rest)) : result = .ok x ∧ text = rest := by
  cases result with
  | error fault => cases h
  | ok y =>
    cases h
    exact ⟨rfl, rfl⟩

end Reader

/-! ## Characters -/

/-- The letters that escape a character, with the character. -/
def shortEscapes : List (Char × Char) :=
  [('"', '"'), ('\\', '\\'), ('/', '/'), ('b', '\x08'), ('f', '\x0c'), ('n', '\n'), ('r', '\r'),
    ('t', '\t')]

/-- The ways to write a character inside a string. One of two surrogates alone is no character. -/
inductive Spells : List Char → Char → Prop
  | plain {c : Char} (hquote : c ≠ '"') (hslash : c ≠ '\\') (hcontrol : ¬c.toNat < 0x20) :
      Spells [c] c
  | short {letter c : Char} (h : (letter, c) ∈ shortEscapes) : Spells ['\\', letter] c
  | code {ds : List Char} {c : Char} (h : hexValue? ds = some c.toNat) :
      Spells ('\\' :: 'u' :: ds) c
  | pair {ds es : List Char} {high low : Nat} {c : Char} (hds : hexValue? ds = some high)
      (hes : hexValue? es = some low) (hhigh : isHighSurrogate high = true)
      (hlow : isLowSurrogate low = true)
      (hc : c.toNat = (high - 0xD800) * 0x400 + (low - 0xDC00) + 0x10000) :
      Spells ('\\' :: 'u' :: (ds ++ '\\' :: 'u' :: es)) c

/-! ### Codes -/

theorem hexDigit?_lt {c : Char} {n : Nat} (h : hexDigit? c = some n) : n < 16 := by
  have hle {d : Char} (hd : c ≤ d) : c.toNat ≤ d.toNat := UInt32.le_iff_toNat_le.1 hd
  unfold hexDigit? at h
  split_ifs at h with hdigit hsmall hcapital
  · have hnine : c.toNat ≤ 57 := (Char.isDigit_iff_toNat.1 hdigit).2
    have hzero : '0'.toNat = 48 := rfl
    obtain rfl := Option.some.inj h
    omega
  · have hf : c.toNat ≤ 102 := hle hsmall.2
    have ha : 'a'.toNat = 97 := rfl
    obtain rfl := Option.some.inj h
    omega
  · have hf : c.toNat ≤ 70 := hle hcapital.2
    have ha : 'A'.toNat = 65 := rfl
    obtain rfl := Option.some.inj h
    omega

theorem foldlM_hexDigit?_lt {ds : List Char} {start n : Nat}
    (h : ds.foldlM (fun n c => (hexDigit? c).map (16 * n + ·)) start = some n) :
    n < (start + 1) * 16 ^ ds.length := by
  induction ds generalizing start with
  | nil =>
    cases h
    simp
  | cons c ds ih =>
    rw [List.foldlM_cons] at h
    obtain ⟨next, hnext, h⟩ := Option.bind_eq_some_iff.1 h
    obtain ⟨digit, hdigit, rfl⟩ := Option.map_eq_some_iff.1 hnext
    have hlt := hexDigit?_lt hdigit
    -- The next digit stays below the sixteen that the place is worth.
    calc n < (16 * start + digit + 1) * 16 ^ ds.length := ih h
      _ ≤ (start + 1) * 16 * 16 ^ ds.length := Nat.mul_le_mul_right _ (by omega)
      _ = (start + 1) * 16 ^ (c :: ds).length := by rw [List.length_cons]; ring

theorem hexValue?_eq_some {ds : List Char} {n : Nat} (h : hexValue? ds = some n) :
    ds.length = 4 ∧ n < 0x10000 := by
  unfold hexValue? at h
  split_ifs at h with hlength
  refine ⟨hlength, ?_⟩
  simpa [hlength] using foldlM_hexDigit?_lt h

theorem readHex_append {ds : List Char} {n : Nat} (h : hexValue? ds = some n) (rest : List Char) :
    readHex (ds ++ rest) = .ok (n, rest) := by
  obtain ⟨hlength, -⟩ := hexValue?_eq_some h
  rw [readHex, List.take_left' hlength, List.drop_left' hlength, h]

theorem exists_of_readHex {text rest : List Char} {n : Nat} (h : readHex text = .ok (n, rest)) :
    ∃ ds, hexValue? ds = some n ∧ text = ds ++ rest := by
  unfold readHex at h
  split at h
  case h_1 m hm =>
    cases h
    exact ⟨text.take 4, hm, (List.take_append_drop 4 text).symm⟩
  case h_2 => cases h

/-- The codes of characters are all but the surrogates. -/
theorem toNat_ofNat_of_isValidChar {n : Nat} (h : n.isValidChar) : (Char.ofNat n).toNat = n := by
  rw [Char.ofNat, dif_pos h]
  rfl

theorem not_surrogate (c : Char) :
    isLowSurrogate c.toNat = false ∧ isHighSurrogate c.toNat = false := by
  have hvalid : c.toNat.isValidChar := c.valid
  simp only [isLowSurrogate, isHighSurrogate, Bool.and_eq_false_iff, decide_eq_false_iff_not]
  omega

theorem toNat_joinSurrogates {high low : Nat} (hhigh : isHighSurrogate high = true)
    (hlow : isLowSurrogate low = true) :
    (joinSurrogates high low).toNat = (high - 0xD800) * 0x400 + (low - 0xDC00) + 0x10000 := by
  simp only [isHighSurrogate, isLowSurrogate, Bool.and_eq_true, decide_eq_true_eq] at hhigh hlow
  refine toNat_ofNat_of_isValidChar (.inr ?_)
  omega

theorem spells_of_readCodeUnits {text rest : List Char} {c : Char}
    (h : readCodeUnits text = .ok (c, rest)) :
    ∃ escape, Spells ('\\' :: escape) c ∧ 'u' :: text = escape ++ rest := by
  obtain ⟨n, afterFirst, hfirst, hnext⟩ := Reader.exists_of_bind_ok h
  obtain ⟨ds, hds, rfl⟩ := exists_of_readHex hfirst
  split_ifs at hnext with hlow hhigh
  · cases hnext
  · obtain ⟨_, afterMark, hmark, hbehind⟩ := Reader.exists_of_bind_ok hnext
    obtain ⟨low, afterSecond, hsecond, hlast⟩ := Reader.exists_of_bind_ok hbehind
    obtain ⟨es, hes, rfl⟩ := exists_of_readHex hsecond
    obtain rfl : afterFirst = '\\' :: 'u' :: (es ++ afterSecond) := by
      unfold readSecondEscape at hmark
      split at hmark <;> cases hmark
      rfl
    split_ifs at hlast with hpair
    · obtain ⟨rfl, rfl⟩ := Prod.mk.inj (Except.ok.inj hlast)
      exact ⟨_, .pair hds hes hhigh hpair (toNat_joinSurrogates hhigh hpair), by simp⟩
    · cases hlast
  · cases hnext
    -- Four digits do not reach beyond the first plane, so only the surrogates are to be excluded.
    have hlt := (hexValue?_eq_some hds).2
    have hvalid : n.isValidChar := by
      simp only [isLowSurrogate, isHighSurrogate, Bool.and_eq_true, decide_eq_true_eq] at hlow hhigh
      omega
    exact ⟨_, .code (by rw [toNat_ofNat_of_isValidChar hvalid, hds]), rfl⟩

/-! ### Escapes -/

theorem spells_of_readEscape {text rest : List Char} {c : Char}
    (h : readEscape text = .ok (c, rest)) :
    ∃ escape, Spells ('\\' :: escape) c ∧ text = escape ++ rest := by
  unfold readEscape at h
  split at h
  case h_10 => exact spells_of_readCodeUnits h
  -- The other escapes are a letter each, or a fault.
  all_goals cases h
  all_goals exact ⟨[_], .short (by simp [shortEscapes]), rfl⟩

theorem Spells.readEscape {escape : List Char} {c : Char} (h : Spells ('\\' :: escape) c)
    (rest : List Char) : Json.readEscape (escape ++ rest) = .ok (c, rest) := by
  cases h with
  | plain _ hslash => exact absurd rfl hslash
  | short h =>
    simp only [shortEscapes, List.mem_cons, Prod.mk.injEq, List.not_mem_nil, or_false] at h
    rcases h with ⟨rfl, rfl⟩ | ⟨rfl, rfl⟩ | ⟨rfl, rfl⟩ | ⟨rfl, rfl⟩ | ⟨rfl, rfl⟩ | ⟨rfl, rfl⟩ |
      ⟨rfl, rfl⟩ | ⟨rfl, rfl⟩ <;> rfl
  | code hds =>
    obtain ⟨hlow, hhigh⟩ := not_surrogate c
    rw [List.cons_append, Json.readEscape, readCodeUnits, Reader.bind_of_ok (readHex_append hds _)]
    simp only [hlow, hhigh, Bool.false_eq_true, if_false, Char.ofNat_toNat]
    rfl
  | @pair ds es high low _ hds hes hhigh hlow hc =>
    have hfirst : isLowSurrogate high = false := by
      simp only [isHighSurrogate, isLowSurrogate, Bool.and_eq_true, decide_eq_true_eq,
        Bool.and_eq_false_iff, decide_eq_false_iff_not] at hhigh ⊢
      omega
    have hmark : readSecondEscape ('\\' :: 'u' :: (es ++ rest)) = .ok ((), es ++ rest) := rfl
    -- The pair has the code of the character, and a character is its code.
    have hjoin : joinSurrogates high low = c := by
      apply Char.toNat_inj.1
      rw [toNat_joinSurrogates hhigh hlow, hc]
    rw [List.cons_append, List.append_assoc, Json.readEscape, readCodeUnits,
      Reader.bind_of_ok (readHex_append hds _)]
    simp only [hfirst, hhigh, Bool.false_eq_true, if_false, if_true, List.cons_append]
    rw [Reader.bind_of_ok hmark, Reader.bind_of_ok (readHex_append hes _), if_pos hlow, hjoin]
    rfl

/-! ## Strings -/

theorem Spells.ne_nil {piece : List Char} {c : Char} (h : Spells piece c) : piece ≠ [] := by
  cases h <;> exact List.cons_ne_nil _ _

/-- A character is read from each of the ways to write it. -/
theorem Spells.readCharacters {piece : List Char} {c : Char} (h : Spells piece c) (b : Char)
    (bound rest : List Char) : Json.readCharacters (b :: bound) (piece ++ rest) =
      (List.cons c <$> Json.readCharacters bound) rest := by
  have hescape {escape : List Char} (h : Spells ('\\' :: escape) c) :
      Json.readCharacters (b :: bound) ('\\' :: (escape ++ rest)) =
        (List.cons c <$> Json.readCharacters bound) rest := by
    rw [Json.readCharacters]
    exact Reader.bind_of_ok (h.readEscape rest) _
  cases h with
  | plain hquote hslash hcontrol =>
    rw [List.singleton_append, Json.readCharacters]
    beta_reduce
    split
    case h_1 heq => cases heq
    case h_2 heq => exact absurd (List.cons.inj heq).1 hquote
    case h_3 heq => exact absurd (List.cons.inj heq).1 hslash
    case h_4 heq =>
      cases heq
      rw [if_neg hcontrol]
  | short h => exact hescape (.short h)
  | code h => exact hescape (.code h)
  | pair hds hes hhigh hlow hc => exact hescape (.pair hds hes hhigh hlow hc)

theorem readCharacters_flatten {pieces : List (List Char)} {cs : List Char}
    (h : List.Forall₂ Spells pieces cs) {bound : List Char} (hbound : cs.length < bound.length)
    (rest : List Char) : readCharacters bound (pieces.flatten ++ '"' :: rest) = .ok (cs, rest) := by
  induction h generalizing bound with
  | nil =>
    cases bound with
    | nil => simp at hbound
    | cons b bound => rfl
  | cons hpiece _ ih =>
    cases bound with
    | nil => simp at hbound
    | cons b bound =>
      have htail := ih (Nat.lt_of_succ_lt_succ hbound)
      rw [List.flatten_cons, List.append_assoc, hpiece.readCharacters]
      exact Reader.map_of_ok htail _

theorem spells_of_readCharacters {bound text cs rest : List Char}
    (h : readCharacters bound text = .ok (cs, rest)) :
    ∃ pieces, List.Forall₂ Spells pieces cs ∧ text = pieces.flatten ++ '"' :: rest := by
  -- The recursion is on the bound, and every step takes one piece off the text.
  induction bound generalizing text cs with
  | nil => cases h
  | cons b bound ih =>
    rw [readCharacters] at h
    beta_reduce at h
    split at h
    case h_1 => cases h
    case h_2 =>
      cases h
      exact ⟨[], .nil, rfl⟩
    case h_3 =>
      obtain ⟨c, middle, hescape, hrest⟩ := Reader.exists_of_bind_ok h
      obtain ⟨tail, hread, rfl⟩ := Reader.exists_of_map_ok hrest
      obtain ⟨escape, hspells, rfl⟩ := spells_of_readEscape hescape
      obtain ⟨pieces, hpieces, rfl⟩ := ih hread
      exact ⟨('\\' :: escape) :: pieces, .cons hspells hpieces, by simp⟩
    case h_4 c tail hquote hslash =>
      split_ifs at h with hcontrol
      obtain ⟨tail, hread, rfl⟩ := Reader.exists_of_map_ok h
      obtain ⟨pieces, hpieces, rfl⟩ := ih hread
      exact ⟨[c] :: pieces, .cons (.plain hquote hslash hcontrol) hpieces, rfl⟩

/-- The texts of a string: each of its characters is written in one of its ways, and the whole
stands between quotes. -/
inductive Quotes : List Char → String → Prop
  | mk {pieces : List (List Char)} {s : String} (h : List.Forall₂ Spells pieces s.toList) :
      Quotes ('"' :: (pieces.flatten ++ ['"'])) s

theorem length_le_length_flatten {pieces : List (List Char)} {cs : List Char}
    (h : List.Forall₂ Spells pieces cs) : cs.length ≤ pieces.flatten.length := by
  induction h with
  | nil => simp
  | cons hpiece _ ih =>
    have hpos := List.length_pos_of_ne_nil hpiece.ne_nil
    simp only [List.flatten_cons, List.length_append, List.length_cons]
    omega

/-- The reader takes a string from its texts, whatever stands behind them, and from nothing else. -/
theorem readString_eq_ok_iff {text rest : List Char} {s : String} :
    readString text = .ok (s, rest) ↔ ∃ body, Quotes body s ∧ '"' :: text = body ++ rest := by
  constructor
  · intro h
    obtain ⟨cs, hread, rfl⟩ := Reader.exists_of_map_ok h
    obtain ⟨pieces, hpieces, rfl⟩ := spells_of_readCharacters hread
    exact ⟨_, .mk (by rwa [String.toList_ofList]), by simp⟩
  · rintro ⟨_, @⟨pieces, _, hpieces⟩, htext⟩
    rw [List.cons_append, List.append_assoc] at htext
    obtain rfl := (List.cons.inj htext).2
    -- No way to write a character is empty, so the text is long enough a bound.
    have hlength := length_le_length_flatten hpieces
    have hbound : s.toList.length < (pieces.flatten ++ '"' :: rest).length := by
      rw [List.length_append, List.length_cons]
      omega
    have hread := Reader.map_of_ok (readCharacters_flatten hpieces hbound rest) String.ofList
    rwa [String.ofList_toList] at hread

/-! ### The written form -/

/-- The characters of a string as they stand between the quotes. -/
def escaped (text : List Char) : List Char := text.flatMap fun c => (escapeChar c).toList

theorem toList_stringText (text : String) :
    (stringText text).toList = '"' :: (escaped text.toList ++ ['"']) := by
  simp [stringText, escaped, String.toList_join, List.flatMap_def, Function.comp_def]

theorem hexValue?_hexPair : ∀ n < 0x20,
    hexValue? ['0', '0', Nat.digitChar (n / 16), Nat.digitChar (n % 16)] = some n := by
  decide

/-- Whichever escape a character has, it spells the character. -/
theorem spells_escapeChar (c : Char) : Spells (escapeChar c).toList c := by
  have hshort (letter : Char) (h : (letter, c) ∈ shortEscapes) : Spells ['\\', letter] c := .short h
  unfold escapeChar
  -- The quote and the backslash are escaped, and of the others only the control characters.
  split_ifs with h1 h2 h3 h4 h5 h6 h7 hcontrol
  · exact hshort '"' (by simp [shortEscapes, h1])
  · exact hshort '\\' (by simp [shortEscapes, h2])
  · exact hshort 'b' (by simp [shortEscapes, h3])
  · exact hshort 'f' (by simp [shortEscapes, h4])
  · exact hshort 'n' (by simp [shortEscapes, h5])
  · exact hshort 'r' (by simp [shortEscapes, h6])
  · exact hshort 't' (by simp [shortEscapes, h7])
  · simpa [hexPair] using Spells.code (hexValue?_hexPair _ hcontrol)
  · rw [Char.toString_eq_singleton, String.toList_singleton]
    exact .plain h1 h2 hcontrol

theorem quotes_stringText (s : String) : Quotes (stringText s).toList s := by
  rw [toList_stringText, escaped, List.flatMap_def]
  refine .mk (List.forall₂_map_left_iff.2 ?_)
  exact List.forall₂_same.2 fun c _ => spells_escapeChar c

theorem readString_escaped (text : String) (rest : List Char) :
    readString (escaped text.toList ++ '"' :: rest) = .ok (text, rest) := by
  refine readString_eq_ok_iff.2 ⟨_, quotes_stringText text, ?_⟩
  simp [toList_stringText]

end Json

end CellularShader
