/- # What the texts of a value are read as

A value can be written in many ways: with blanks around its brackets, commas and colons, with
characters escaped or not, and with several forms of an exponent. The reader makes the same of all
of them, wherever they stand. It fails only when the value nests too deep or has a number out of
range, and then it fails whatever stands behind the value. So the outcome is a function of the value
as it is written, in which members stand in their order and keys may be repeated.
-/

import CellularShader.Proofs.Json.Refusal

namespace CellularShader

namespace Json

variable {α β σ : Type}

/-- A value as it is written: a number by its digits, the members of an object in their order. -/
inductive Term where
  | null
  | bool (b : Bool)
  | number (numeral : Numeral)
  | string (text : String)
  | array (elements : List Term)
  | object (members : List (String × Term))

namespace Term

/-- What holds of the elements of every list and the members of every object holds of all terms. -/
@[elab_as_elim, induction_eliminator]
theorem induct {P : Term → Prop} (null : P null) (bool : ∀ b, P (bool b))
    (number : ∀ numeral, P (number numeral)) (string : ∀ text, P (string text))
    (array : ∀ elements, (∀ t ∈ elements, P t) → P (array elements))
    (object : ∀ members, (∀ m ∈ members, P m.2) → P (object members)) (t : Term) : P t :=
  @Term.rec P (fun elements => ∀ t ∈ elements, P t) (fun members => ∀ m ∈ members, P m.2)
    (fun m => P m.2) null bool number string array object (by simp)
    (fun _ _ ht hts => List.forall_mem_cons.2 ⟨ht, hts⟩) (by simp)
    (fun _ _ hm hms => List.forall_mem_cons.2 ⟨hm, hms⟩) (fun _ _ ht => ht) t

/-! ## Values -/

mutual

/-- The value of a term. There is none when lists and objects nest deeper than the number says, or
when a number is out of range. Of several members with one key the last counts. -/
def value? : Nat → Term → Option Value
  | _, null => some .null
  | _, bool b => some (.bool b)
  | _, number numeral => numeral.value.toOption.map .number
  | _, string text => some (.string text)
  | 0, array _ => none
  | limit + 1, array elements => (elementValues? limit elements).map .array
  | 0, object _ => none
  | limit + 1, object members =>
    (memberValues? limit members).map fun ms => .object (SortedMap.insertEntries [] ms)

def elementValues? : Nat → List Term → Option (List Value)
  | _, [] => some []
  | limit, t :: elements => do return (← t.value? limit) :: (← elementValues? limit elements)

def memberValues? : Nat → List (String × Term) → Option (List (String × Value))
  | _, [] => some []
  | limit, (key, t) :: members => do
    return (key, ← t.value? limit) :: (← memberValues? limit members)

end

theorem elementValues?_eq_mapM (limit : Nat) (elements : List Term) :
    elementValues? limit elements = elements.mapM (value? limit) := by
  induction elements with
  | nil => rfl
  | cons t elements ih => rw [elementValues?, ih, List.mapM_cons]

/-- Members can be put in their places one after another as their values are found. -/
theorem foldlM_insertEntry (limit : Nat) (members : List (String × Term))
    (sorted : List (String × Value)) :
    members.foldlM (fun sorted m =>
        (m.2.value? limit).map fun v => SortedMap.insertEntry m.1 v sorted) sorted =
      (memberValues? limit members).map (SortedMap.insertEntries sorted) := by
  induction members generalizing sorted with
  | nil => rfl
  | cons m members ih =>
    rw [List.foldlM_cons, memberValues?]
    cases m.2.value? limit with
    | none => rfl
    | some v =>
      refine (ih _).trans ?_
      cases memberValues? limit members with
      | none => rfl
      | some ms => rfl

/-! ## Texts -/

mutual

/-- The texts of a term. -/
inductive SpelledAs : Term → List Char → Prop
  | null : SpelledAs .null ['n', 'u', 'l', 'l']
  | true : SpelledAs (.bool true) ['t', 'r', 'u', 'e']
  | false : SpelledAs (.bool false) ['f', 'a', 'l', 's', 'e']
  | number {numeral : Numeral} {text : List Char} (h : numeral.Spells text) :
      SpelledAs (.number numeral) text
  | string {s : String} {text : List Char} (h : Quotes text s) : SpelledAs (.string s) text
  | array {elements : List Term} {texts : List (List Char)} {inside : List Char}
      (h : ElementsSpelledAs elements texts) (hinside : Listed texts inside) :
      SpelledAs (.array elements) ('[' :: (inside ++ [']']))
  | object {members : List (String × Term)} {texts : List (List Char)} {inside : List Char}
      (h : MembersSpelledAs members texts) (hinside : Listed texts inside) :
      SpelledAs (.object members) ('{' :: (inside ++ ['}']))

/-- Texts for the elements of a list. -/
inductive ElementsSpelledAs : List Term → List (List Char) → Prop
  | nil : ElementsSpelledAs [] []
  | cons {t : Term} {text : List Char} {elements : List Term} {texts : List (List Char)}
      (h : SpelledAs t text) (hrest : ElementsSpelledAs elements texts) :
      ElementsSpelledAs (t :: elements) (text :: texts)

/-- Texts for the members of an object, with blanks on either side of each colon. -/
inductive MembersSpelledAs : List (String × Term) → List (List Char) → Prop
  | nil : MembersSpelledAs [] []
  | cons {key : String} {t : Term} {quoted before after text : List Char}
      {members : List (String × Term)} {texts : List (List Char)} (hkey : Quotes quoted key)
      (hbefore : Blank before) (hafter : Blank after) (h : SpelledAs t text)
      (hrest : MembersSpelledAs members texts) :
      MembersSpelledAs ((key, t) :: members)
        ((quoted ++ (before ++ ':' :: (after ++ text))) :: texts)

end

/-- Whole texts of a term, with blanks around it or not. -/
def HasText (t : Term) (whole : String) : Prop :=
  ∃ lead text trail, Blank lead ∧ t.SpelledAs text ∧ Blank trail ∧
    whole.toList = lead ++ (text ++ trail)

end Term

/-! ## Outcomes without their faults -/

namespace Reader

variable {reader : Reader α} {text rest : List Char}

/-- What a reader takes from a text, if it does not fail. -/
def result? (reader : Reader α) (text : List Char) : Option (α × List Char) :=
  (reader text).toOption

theorem result?_eq_some_iff {p : α × List Char} :
    reader.result? text = some p ↔ reader text = .ok p :=
  Outcome.toOption_eq_some_iff

theorem result?_eq_none_iff :
    reader.result? text = none ↔ ∃ fault, reader text = .error fault := by
  unfold result?
  cases reader text with
  | error fault => exact ⟨fun _ => ⟨fault, rfl⟩, fun _ => rfl⟩
  | ok q =>
    constructor
    · intro h
      cases h
    · rintro ⟨fault, h⟩
      cases h

theorem result?_bind (reader : Reader α) (next : α → Reader β) (text : List Char) :
    Reader.result? (reader >>= next) text =
      (reader.result? text).bind fun p => (next p.1).result? p.2 := by
  unfold result?
  cases h : reader text with
  | error fault =>
    rw [bind_of_error h]
    rfl
  | ok p =>
    rw [bind_of_ok h]
    rfl

theorem result?_bind_pure (reader : Reader α) (f : α → β) (text : List Char) :
    Reader.result? (reader >>= fun x => pure (f x)) text =
      (reader.result? text).map fun p => (f p.1, p.2) := by
  rw [result?_bind]
  cases reader.result? text with
  | none => rfl
  | some p => rfl

theorem result?_map (f : α → β) (reader : Reader α) (text : List Char) :
    Reader.result? (f <$> reader) text = (reader.result? text).map fun p => (f p.1, p.2) := by
  rw [map_eq_pure_bind, result?_bind_pure]

theorem result?_lift (result : Except Fault α) (text : List Char) :
    Reader.result? (liftM result : Reader α) text = result.toOption.map (·, text) := by
  cases result with
  | error fault => rfl
  | ok x => rfl

end Reader

/-- The reader makes the same of the text wherever it stands: it takes it, and nothing behind it,
for the result, and fails when there is none. -/
structure Yields (reader : Reader α) (text : List Char) (result : Option α) : Prop where
  starts : Starts text
  yields {gap rest : List Char} (hgap : Blank gap) (hrest : Ends rest) :
    reader.result? (gap ++ (text ++ rest)) = result.map (·, rest)

variable {reader : Reader α} {text : List Char}

theorem ReadAs.yields {x : α} (h : ReadAs reader text x) : Yields reader text (some x) :=
  ⟨h.starts, fun hgap hrest => Reader.result?_eq_some_iff.2 (h.reads hgap hrest)⟩

theorem Yields.result? {result : Option α} (h : Yields reader text result) {rest : List Char}
    (hrest : Ends rest) : reader.result? (text ++ rest) = result.map (·, rest) :=
  h.yields blank_nil hrest

/-- A reader that passes over blanks first has to be looked at without them only. -/
theorem Yields.of_skips {c : Char} {tail : List Char} {result : Option α}
    (hskips : ∀ text, reader (skipBlanks text) = reader text) (hc : isBlank c = false)
    (hclose : c ≠ ']')
    (h : ∀ rest, Ends rest → reader.result? (c :: (tail ++ rest)) = result.map (·, rest)) :
    Yields reader (c :: tail) result where
  starts := ⟨c, tail, rfl, hc, hclose⟩
  yields {gap rest} hgap hrest := by
    rw [Reader.result?, ← hskips, List.cons_append, skipBlanks_append hgap hc]
    exact h rest hrest

/-- A whole text is taken for what its value is taken for. -/
theorem Term.HasText.readText {t : Term} {whole : String} (h : t.HasText whole) {result : Option α}
    (hyields : ∀ {text}, t.SpelledAs text → Yields reader text result) :
    (Json.readText reader whole).toOption = result := by
  obtain ⟨lead, text, trail, hlead, htext, htrail, hwhole⟩ := h
  have hresult := (hyields htext).yields hlead htrail.ends
  rw [← hwhole] at hresult
  cases result with
  | none =>
    obtain ⟨fault, hread⟩ := Reader.result?_eq_none_iff.1 hresult
    rw [Json.readText, hread]
    rfl
  | some x =>
    have hread := Reader.result?_eq_some_iff.1 hresult
    rw [readText_eq_ok_iff.2 ⟨trail, hread, htrail⟩]
    rfl

/-! ## Pieces up to a closing bracket -/

/-- The pieces that are left in a bracket, the first of all among them or not. -/
def Remaining : Bool → List (List Char) → List Char → Prop
  | true => Listed
  | false => Following

namespace Remaining

variable {first : Bool} {piece inside : List Char} {pieces : List (List Char)}

theorem blank_of_nil (h : Remaining first [] inside) : Blank inside := by
  cases first with
  | true =>
    obtain ⟨hgap⟩ : Listed [] inside := h
    exact hgap
  | false =>
    obtain ⟨hgap⟩ : Following [] inside := h
    exact hgap

theorem nextElement (h : Remaining first (piece :: pieces) inside) (hpiece : Starts piece) :
    ∃ behind, Remaining false pieces behind ∧
      ∀ rest, Json.nextElement first (inside ++ rest) = .ok (true, piece ++ (behind ++ rest)) := by
  cases first with
  | true => exact Listed.nextElement h hpiece
  | false => exact Following.nextElement h hpiece

theorem nextKey {tail : List Char} (h : Remaining first (('"' :: tail) :: pieces) inside) :
    ∃ behind, Remaining false pieces behind ∧
      ∀ rest, Json.nextKey first (inside ++ rest) = .ok (true, tail ++ (behind ++ rest)) := by
  cases first with
  | true =>
    have hlisted : Listed (('"' :: tail) :: pieces) inside := h
    cases hlisted with
    | some hlead hbehind =>
      refine ⟨_, hbehind, fun rest => ?_⟩
      rw [List.append_assoc, List.append_assoc]
      exact nextKey_first hlead _
  | false =>
    have hfollowing : Following (('"' :: tail) :: pieces) inside := h
    cases hfollowing with
    | next hgap hlead hbehind =>
      refine ⟨_, hbehind, fun rest => ?_⟩
      rw [List.append_assoc, List.cons_append, List.append_assoc, List.append_assoc]
      exact nextKey_comma hgap hlead _

/-- The key of a member is read behind its opening quote, and what follows it is left. -/
theorem readKey {quoted text : List Char} {key : String}
    (h : Remaining first ((quoted ++ text) :: pieces) inside) (hkey : Quotes quoted key) :
    ∃ behind, Remaining false pieces behind ∧ ∀ rest, ∃ tail,
      Json.nextKey first (inside ++ rest) = .ok (true, tail) ∧
        readString tail = .ok (key, text ++ (behind ++ rest)) := by
  obtain ⟨hspelled⟩ := hkey
  obtain ⟨behind, h', hnext⟩ := h.nextKey
  exact ⟨behind, h', fun rest => ⟨_, hnext rest, readString_eq_ok_iff.2 ⟨_, .mk hspelled, by simp⟩⟩⟩

theorem ends (h : Remaining false pieces inside) {close : Char} (hclose : endsValue close = true)
    (rest : List Char) : Ends (inside ++ close :: rest) :=
  Following.ends h hclose rest

end Remaining

/-! ## Lists -/

/-- The elements of a list are read when each of them is. -/
theorem result?_readElements {item : Reader α} {f : β → Option α} {xs : List β}
    {pieces : List (List Char)}
    (hitems : List.Forall₂ (fun x piece => Yields item piece (f x)) xs pieces) {first : Bool}
    {inside : List Char} (h : Remaining first pieces inside) {bound : List Char}
    (hbound : pieces.length < bound.length) (rest : List Char) :
    Reader.result? (readElements item bound first) (inside ++ ']' :: rest) =
      (xs.mapM f).map (·, ']' :: rest) := by
  have hclose : endsValue ']' = true := rfl
  induction hitems generalizing first inside bound with
  | nil =>
    cases bound with
    | nil => simp at hbound
    | cons b bound =>
      rw [Reader.result?, readElements,
        Reader.bind_of_ok (nextElement_close first h.blank_of_nil rest)]
      rfl
  | @cons x piece xs pieces hpiece _ ih =>
    cases bound with
    | nil => simp at hbound
    | cons b bound =>
      obtain ⟨behind, h', hnext⟩ := h.nextElement hpiece.starts
      have hrest := ih h' (Nat.lt_of_succ_lt_succ hbound)
      rw [Reader.result?, readElements, Reader.bind_of_ok (hnext _), if_pos rfl, ← Reader.result?,
        Reader.result?_bind, hpiece.result? (h'.ends hclose rest), List.mapM_cons]
      cases f x with
      | none => rfl
      | some v =>
        rw [Option.map_some, Option.bind_some, Reader.result?_bind, hrest]
        cases xs.mapM f with
        | none => rfl
        | some vs => rfl

/-- A list is read when each of its elements is. -/
theorem result?_readList {item : Reader α} {f : β → Option α} {xs : List β}
    {pieces : List (List Char)}
    (hitems : List.Forall₂ (fun x piece => Yields item piece (f x)) xs pieces)
    {inside : List Char} (h : Listed pieces inside) (rest : List Char) :
    Reader.result? (readList item) (inside ++ ']' :: rest) = (xs.mapM f).map (·, rest) := by
  -- A piece is never empty, so there are no more pieces than characters.
  have hne : pieces.head? ≠ some [] := by
    cases hitems with
    | nil => simp
    | cons hpiece =>
      obtain ⟨c, tail, rfl, -⟩ := hpiece.starts
      simp
  have hbound := h.length_lt hne ']' rest
  have hremaining : Remaining true pieces inside := h
  have hclose : Reader.result? closeList (']' :: rest) = some ((), rest) := rfl
  change Reader.result? (readElements item (inside ++ ']' :: rest) true >>= _) _ = _
  rw [Reader.result?_bind, result?_readElements hitems hremaining hbound rest]
  cases xs.mapM f with
  | none => rfl
  | some vs =>
    rw [Option.map_some, Option.bind_some, Reader.result?_bind, hclose]
    rfl

/-! ## Objects -/

/-- A member is taken in wherever it stands and however it is written: the state after it is that of
the step, and it is refused when there is none. -/
def Takes (member : String → σ → Reader σ) (step : σ → String × Term → Option σ)
    (m : String × Term) : Prop :=
  ∀ {text : List Char}, m.2.SpelledAs text → ∀ (state : σ) {before after rest : List Char},
    Blank before → Blank after → Ends rest →
      Reader.result? (member m.1 state) (before ++ ':' :: (after ++ (text ++ rest))) =
        (step state m).map (·, rest)

variable {member : String → σ → Reader σ} {step : σ → String × Term → Option σ}

/-- Members are taken in one after another, in the order in which they are written. -/
theorem result?_readMembers {members : List (String × Term)} {pieces : List (List Char)}
    (hmembers : Term.MembersSpelledAs members pieces) (htakes : ∀ m ∈ members, Takes member step m)
    {first : Bool} {inside : List Char} (h : Remaining first pieces inside) {bound : List Char}
    (hbound : pieces.length < bound.length) (state : σ) (rest : List Char) :
    Reader.result? (readMembers member bound first state) (inside ++ '}' :: rest) =
      (members.foldlM step state).map (·, rest) := by
  have hclose : endsValue '}' = true := rfl
  induction members generalizing pieces first inside bound state with
  | nil =>
    cases hmembers
    cases bound with
    | nil => simp at hbound
    | cons b bound =>
      rw [Reader.result?, readMembers, Reader.bind_of_ok (nextKey_close first h.blank_of_nil rest)]
      rfl
  | cons m members ih =>
    obtain ⟨hm, hothers⟩ := List.forall_mem_cons.1 htakes
    cases bound with
    | nil => simp at hbound
    | cons b bound =>
      cases hmembers with
      | @cons key t _ _ _ _ _ _ hkey hbefore hafter ht hrest =>
        obtain ⟨behind, h', hread⟩ := h.readKey hkey
        obtain ⟨tail, hnext, hstring⟩ := hread ('}' :: rest)
        rw [Reader.result?, readMembers, Reader.bind_of_ok hnext, if_pos rfl,
          Reader.bind_of_ok hstring, List.append_assoc, List.cons_append, List.append_assoc,
          ← Reader.result?, Reader.result?_bind, hm ht state hbefore hafter (h'.ends hclose rest),
          List.foldlM_cons]
        cases step state (key, t) with
        | none => rfl
        | some next => exact ih hrest hothers h' (Nat.lt_of_succ_lt_succ hbound) next

/-- An object is read when its members are taken in. -/
theorem result?_readObject {members : List (String × Term)} {pieces : List (List Char)}
    (hmembers : Term.MembersSpelledAs members pieces) (htakes : ∀ m ∈ members, Takes member step m)
    {inside : List Char} (h : Listed pieces inside) (state : σ) (rest : List Char) :
    Reader.result? (readObject member state) (inside ++ '}' :: rest) =
      (members.foldlM step state).map (·, rest) := by
  have hne : pieces.head? ≠ some [] := by
    cases hmembers with
    | nil => simp
    | cons => simp
  have hbound := h.length_lt hne '}' rest
  exact result?_readMembers hmembers htakes (show Remaining true pieces inside from h) hbound state
    rest

/-! ## Values -/

theorem readColon_blanks {before : List Char} (hbefore : Blank before) (rest : List Char) :
    readColon (before ++ ':' :: rest) = .ok ((), rest) := by
  rw [readColon, skipBlanks_append hbefore rfl]
  rfl

/-- What stands behind the colon of a member is read and put in its place. -/
theorem Yields.behind_colon {result : Option α} (h : Yields reader text result) (put : α → β)
    {before after rest : List Char} (hbefore : Blank before) (hafter : Blank after)
    (hrest : Ends rest) :
    Reader.result? (do readColon; return put (← reader))
      (before ++ ':' :: (after ++ (text ++ rest))) = (result.map put).map (·, rest) := by
  rw [Reader.result?, Reader.bind_of_ok (readColon_blanks hbefore _), ← Reader.result?,
    Reader.result?_bind_pure, h.yields hafter hrest, Option.map_map, Option.map_map]
  rfl

theorem yields_number {numeral : Numeral} (h : numeral.Spells text) (limit : Nat) :
    Yields (readValue limit) text ((Term.number numeral).value? limit) := by
  obtain ⟨nested, hlimit⟩ := exists_readValueWith limit
  obtain ⟨c, tail, rfl, hc⟩ := h.starts
  have hclose : c ≠ ']' := by
    rintro rfl
    exact absurd hc (by decide)
  refine .of_skips (readValue_skipBlanks limit) (isBlank_of_starts_number hc) hclose ?_
  intro rest hrest
  have hread : readNumber.result? (c :: (tail ++ rest)) = numeral.value.toOption.map (·, rest) := by
    have hnumeral := h.read hrest
    rw [List.cons_append] at hnumeral
    rw [Reader.result?, readNumber, Reader.bind_of_ok hnumeral, ← Reader.result?]
    exact Reader.result?_lift _ rest
  rw [hlimit, Reader.result?, readValueWith_number hc, ← Reader.result?, Reader.result?_map, hread,
    Term.value?]
  cases numeral.value with
  | error fault => rfl
  | ok n => rfl

/-- Lists and objects are refused where nothing may nest. -/
theorem yields_none_of_bracket {c : Char} {tail : List Char} (hc : c = '[' ∨ c = '{') :
    Yields (readValue 0) (c :: tail) none := by
  rcases hc with rfl | rfl
  · exact .of_skips (readValue_skipBlanks 0) rfl (by decide) fun rest _ => rfl
  · exact .of_skips (readValue_skipBlanks 0) rfl (by decide) fun rest _ => rfl

/-- The elements of a list in their order. -/
theorem Term.ElementsSpelledAs.forall₂ {elements : List Term} {texts : List (List Char)}
    (h : ElementsSpelledAs elements texts) {P : Term → List Char → Prop}
    (hP : ∀ t ∈ elements, ∀ {text}, t.SpelledAs text → P t text) :
    List.Forall₂ P elements texts := by
  induction elements generalizing texts with
  | nil =>
    cases h
    exact .nil
  | cons t elements ih =>
    obtain ⟨ht, hothers⟩ := List.forall_mem_cons.1 hP
    obtain - | ⟨htext, hrest⟩ := h
    exact .cons (ht htext) (ih hrest hothers)

/-- Every text of a term is read as the value of the term, and refused if it has none. -/
theorem Term.SpelledAs.yields {t : Term} (h : t.SpelledAs text) (limit : Nat) :
    Yields (readValue limit) text (t.value? limit) := by
  induction t generalizing text limit with
  | null =>
    cases h
    exact .of_skips (readValue_skipBlanks limit) rfl (by decide) fun rest _ => by
      cases limit <;> rfl
  | bool b =>
    cases h
    · exact .of_skips (readValue_skipBlanks limit) rfl (by decide) fun rest _ => by
        cases limit <;> rfl
    · exact .of_skips (readValue_skipBlanks limit) rfl (by decide) fun rest _ => by
        cases limit <;> rfl
  | number numeral =>
    cases h with
    | number hnumeral => exact yields_number hnumeral limit
  | string s =>
    cases h with
    | string hs => exact (hs.readAs limit).yields
  | array elements ih =>
    cases h with
    | @array _ texts inside helements hinside =>
      cases limit with
      | zero => exact yields_none_of_bracket (.inl rfl)
      | succ limit =>
        have hitems := helements.forall₂ fun t ht _ htext => ih t ht htext limit
        have hlist := result?_readList hitems hinside
        refine .of_skips (readValue_skipBlanks _) rfl (by decide) fun rest _ => ?_
        change Reader.result? (Value.array <$> readList (readValue limit)) _ = _
        rw [Reader.result?_map, List.append_assoc, List.cons_append, List.nil_append, hlist,
          value?, elementValues?_eq_mapM, Option.map_map, Option.map_map]
        rfl
  | object members ih =>
    cases h with
    | @object _ texts inside hmembers hinside =>
      cases limit with
      | zero => exact yields_none_of_bracket (.inr rfl)
      | succ limit =>
        have htakes : ∀ m ∈ members, Takes
            (fun key sorted => do
              readColon
              return SortedMap.insertEntry key (← readValue limit) sorted)
            (fun sorted m => (m.2.value? limit).map fun v => SortedMap.insertEntry m.1 v sorted)
            m := by
          intro m hm text htext sorted before after rest hbefore hafter hrest
          exact (ih m hm htext limit).behind_colon _ hbefore hafter hrest
        have hobject := result?_readObject hmembers htakes hinside []
        refine .of_skips (readValue_skipBlanks _) rfl (by decide) fun rest _ => ?_
        change Reader.result? (Value.object <$> readObject _ []) _ = _
        rw [Reader.result?_map, List.append_assoc, List.cons_append, List.nil_append, hobject,
          foldlM_insertEntry, value?, Option.map_map, Option.map_map, Option.map_map]
        rfl

end Json

end CellularShader
