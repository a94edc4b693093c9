/- # The members of a record in any order

The tag, the notation and the parameters of a record are members of one object. A record is read
from them when the tag is there, tag and notation are strings, and every other member has a value.
None of this depends on where a member stands, as long as no two have the same key. So members in
another order, in whatever layout, are read as the same record or refused as well.
-/

import CellularShader.Proofs.Json.Term
import CellularShader.Proofs.Record
import CellularShader.Proofs.Record.RoundTrip

namespace CellularShader

open Json (Blank Reader Takes Term Value Yields)
open Outcome SortedMap

/-- The text of a string. -/
def Json.Term.text? : Term → Option String
  | string s => some s
  | _ => none

theorem Json.Term.eq_string_of_text? {t : Term} {s : String} (h : t.text? = some s) :
    t = .string s := by
  cases t with
  | string s' => rw [Option.some.inj h]
  | _ => cases h

namespace Record

variable {limit : Nat} {members members' done : List (String × Term)} {m : String × Term}

/-! ## Reading without the text -/

theorem result?_readText_of_ne {c : Char} (hblank : Json.isBlank c = false) (hc : c ≠ '"')
    {before after : List Char} (hbefore : Blank before) (hafter : Blank after) (tail : List Char) :
    readText.result? (before ++ ':' :: (after ++ c :: tail)) = none := by
  rw [Reader.result?, readText, Reader.bind_of_ok (Json.readColon_blanks hbefore _),
    Json.skipBlanks_append hafter hblank]
  split
  · rename_i heq
    exact absurd (List.cons.inj heq).1 hc
  · rfl

/-- A string is read, and told from everything else by its quote. -/
theorem result?_readText {t : Term} {text : List Char} (h : t.SpelledAs text)
    {before after : List Char} (hbefore : Blank before) (hafter : Blank after) (rest : List Char) :
    readText.result? (before ++ ':' :: (after ++ (text ++ rest))) = t.text?.map (·, rest) := by
  cases h with
  | @string s _ hs =>
    obtain @⟨pieces, _, hpieces⟩ := hs
    have hread : Json.readString (pieces.flatten ++ ['"'] ++ rest) = .ok (s, rest) :=
      Json.readString_eq_ok_iff.2 ⟨_, .mk hpieces, rfl⟩
    rw [Reader.result?, readText, Reader.bind_of_ok (Json.readColon_blanks hbefore _),
      List.cons_append, Json.skipBlanks_append hafter rfl]
    exact congrArg Except.toOption hread
  | number hnumeral =>
    obtain ⟨c, tail, rfl, hc⟩ := hnumeral.starts
    refine result?_readText_of_ne (Json.isBlank_of_starts_number hc) ?_ hbefore hafter _
    rintro rfl
    exact absurd hc (by decide)
  | null => exact result?_readText_of_ne rfl (by decide) hbefore hafter _
  | true => exact result?_readText_of_ne rfl (by decide) hbefore hafter _
  | false => exact result?_readText_of_ne rfl (by decide) hbefore hafter _
  | array => exact result?_readText_of_ne rfl (by decide) hbefore hafter _
  | object => exact result?_readText_of_ne rfl (by decide) hbefore hafter _

/-- What has been read of a record after one more member. -/
def Draft.take? (limit : Nat) (draft : Draft) (m : String × Term) : Option Draft :=
  if m.1 = "ruleFormat" then
    if draft.family.isSome then none else m.2.text?.map fun s => { draft with family := some s }
  else if m.1 = "ruleString" then
    if draft.label.isSome then none else m.2.text?.map fun s => { draft with label := some s }
  else (m.2.value? limit).map fun v => { draft with params := draft.params.insert m.1 v }

theorem takes_readMember (limit : Nat) (m : String × Term) :
    Takes (readMember limit) (Draft.take? limit) m := by
  intro text htext draft before after rest hbefore hafter hrest
  have hread := result?_readText htext hbefore hafter rest
  unfold readMember Draft.take?
  split_ifs
  · rfl
  · rw [Reader.result?_bind_pure, hread, Option.map_map, Option.map_map]
    rfl
  · rfl
  · rw [Reader.result?_bind_pure, hread, Option.map_map, Option.map_map]
    rfl
  · exact (htext.yields limit).behind_colon _ hbefore hafter hrest

/-- The record that has been read, if there was a tag. -/
def Draft.record? (draft : Draft) : Option Record :=
  draft.family.map fun family => ⟨family, draft.label.getD "", draft.params⟩

/-- The record of an object with the given members. -/
def ofMembers? (limit : Nat) (members : List (String × Term)) : Option Record :=
  (members.foldlM (Draft.take? limit) {}).bind Draft.record?

/-- The record depends on the members only, not on how they are written. -/
theorem yields_read {text : List Char} (h : (Term.object members).SpelledAs text) (limit : Nat) :
    Yields (read limit) text (ofMembers? limit members) := by
  cases h with
  | object hmembers hinside =>
    refine .of_skips (read_skipBlanks limit) rfl (by decide) fun rest _ => ?_
    have hobject := Json.result?_readObject hmembers (fun m _ => takes_readMember limit m)
      hinside {} rest
    change Reader.result? (readMembers limit) _ = _
    rw [List.append_assoc, readMembers, List.cons_append, List.nil_append, Reader.result?_bind,
      hobject, ofMembers?]
    cases members.foldlM (Draft.take? limit) {} with
    | none => rfl
    | some draft =>
      obtain ⟨family, label, params⟩ := draft
      cases family with
      | none => rfl
      | some family => rfl

/-! ## What is read -/

/-- Members that can be read: tag and notation as strings, everything else as a value. -/
inductive Fits (limit : Nat) : String × Term → Prop
  | tag (s : String) : Fits limit ("ruleFormat", .string s)
  | label (s : String) : Fits limit ("ruleString", .string s)
  | param {key : String} {t : Term} {v : Value} (htag : key ≠ "ruleFormat")
      (hlabel : key ≠ "ruleString") (h : t.value? limit = some v) : Fits limit (key, t)

/-- The entry of a member that is neither tag nor notation. -/
def IsParam (limit : Nat) (members : List (String × Term)) (e : String × Value) : Prop :=
  e.1 ≠ "ruleFormat" ∧ e.1 ≠ "ruleString" ∧ ∃ t, (e.1, t) ∈ members ∧ t.value? limit = some e.2

/-- What has been read of a record is what the members say, wherever they stand. -/
structure Draft.Holds (limit : Nat) (members : List (String × Term)) (draft : Draft) : Prop where
  family (s : String) : draft.family = some s ↔ ("ruleFormat", .string s) ∈ members
  label (s : String) : draft.label = some s ↔ ("ruleString", .string s) ∈ members
  params (e : String × Value) : e ∈ draft.params.entries ↔ IsParam limit members e

theorem IsParam.perm_iff (hperm : members.Perm members') {e : String × Value} :
    IsParam limit members e ↔ IsParam limit members' e := by
  simp only [IsParam, hperm.mem_iff]

/-- Tag and notation have no entry. -/
theorem isParam_cons_iff_of_reserved (hkey : m.1 = "ruleFormat" ∨ m.1 = "ruleString")
    {e : String × Value} : IsParam limit (m :: members) e ↔ IsParam limit members e := by
  refine and_congr_right fun htag => and_congr_right fun hlabel => exists_congr fun t => ?_
  have hne : (e.1, t) ≠ m := by
    rintro rfl
    exact hkey.elim htag hlabel
  rw [List.mem_cons, or_iff_right hne]

/-- Every other member has the entry of its value. -/
theorem isParam_cons_iff {key : String} {t : Term} {v : Value} (htag : key ≠ "ruleFormat")
    (hlabel : key ≠ "ruleString") (hv : t.value? limit = some v) {e : String × Value} :
    IsParam limit ((key, t) :: members) e ↔ e = (key, v) ∨ IsParam limit members e := by
  constructor
  · rintro ⟨htag', hlabel', t', hmem, hvalue⟩
    rcases List.mem_cons.1 hmem with heq | hmem
    · left
      obtain ⟨rfl, rfl⟩ := Prod.mk.inj heq
      rw [hv] at hvalue
      rw [Option.some.inj hvalue]
    · exact .inr ⟨htag', hlabel', t', hmem, hvalue⟩
  · rintro (rfl | ⟨htag', hlabel', t', hmem, hvalue⟩)
    · exact ⟨htag, hlabel, t, List.mem_cons_self, hv⟩
    · exact ⟨htag', hlabel', t', List.mem_cons_of_mem _ hmem, hvalue⟩

namespace Draft

variable {draft : Draft}

theorem holds_nil : Holds limit [] {} where
  family s := by simp
  label s := by simp
  params e := by simp [SortedMap.empty, IsParam]

theorem Holds.of_perm (h : draft.Holds limit members) (hperm : members.Perm members') :
    draft.Holds limit members' where
  family s := (h.family s).trans hperm.mem_iff
  label s := (h.label s).trans hperm.mem_iff
  params e := (h.params e).trans (IsParam.perm_iff hperm)

/-- A member with a new key that can be read joins those that are held. -/
theorem Holds.take? (h : draft.Holds limit done) (hm : Fits limit m)
    (hfresh : ∀ n ∈ done, m.1 ≠ n.1) :
    ∃ next, draft.take? limit m = some next ∧ next.Holds limit (m :: done) := by
  have hnew {t : Term} : (m.1, t) ∉ done := fun hmem => hfresh _ hmem rfl
  cases hm with
  | tag s =>
    have hfree : draft.family = none := Option.eq_none_iff_forall_ne_some.2 fun s' hs' =>
      hnew ((h.family s').1 hs')
    refine ⟨{ draft with family := some s }, by simp [Draft.take?, hfree, Term.text?],
      fun s' => ?_, fun s' => ?_, fun e => ?_⟩
    · simp [hnew, eq_comm]
    · simp [h.label]
    · exact (h.params e).trans (isParam_cons_iff_of_reserved (.inl rfl)).symm
  | label s =>
    have hfree : draft.label = none := Option.eq_none_iff_forall_ne_some.2 fun s' hs' =>
      hnew ((h.label s').1 hs')
    refine ⟨{ draft with label := some s }, by simp [Draft.take?, hfree, Term.text?],
      fun s' => ?_, fun s' => ?_, fun e => ?_⟩
    · simp [h.family]
    · simp [hnew, eq_comm]
    · exact (h.params e).trans (isParam_cons_iff_of_reserved (.inr rfl)).symm
  | @param key t v htag hlabel hv =>
    have hkeys : ∀ e ∈ draft.params.entries, key ≠ e.1 := by
      intro e he
      obtain ⟨-, -, t', hmem, -⟩ := (h.params e).1 he
      exact hfresh _ hmem
    refine ⟨{ draft with params := draft.params.insert key v },
      by simp [Draft.take?, htag, hlabel, hv], fun s => ?_, fun s => ?_, fun e => ?_⟩
    · simp [h.family, htag.symm]
    · simp [h.label, hlabel.symm]
    · rw [isParam_cons_iff htag hlabel hv, ← h.params, ← List.mem_cons]
      exact (perm_insertEntry v hkeys).mem_iff

theorem fits_of_take? {next : Draft} (h : draft.take? limit m = some next) : Fits limit m := by
  obtain ⟨key, t⟩ := m
  unfold Draft.take? at h
  split_ifs at h with htag hfamily hlabel
  · obtain rfl : key = "ruleFormat" := htag
    obtain ⟨s, hs, -⟩ := Option.map_eq_some_iff.1 h
    obtain rfl : t = .string s := Term.eq_string_of_text? hs
    exact .tag s
  · obtain rfl : key = "ruleString" := hlabel
    obtain ⟨s, hs, -⟩ := Option.map_eq_some_iff.1 h
    obtain rfl : t = .string s := Term.eq_string_of_text? hs
    exact .label s
  · obtain ⟨v, hv, -⟩ := Option.map_eq_some_iff.1 h
    exact .param htag hlabel hv

/-- Members with distinct keys that can all be read are all held in the end. -/
theorem Holds.foldlM (h : draft.Holds limit done) (hdistinct : Distinct (members ++ done))
    (hfits : ∀ m ∈ members, Fits limit m) :
    ∃ last, members.foldlM (Draft.take? limit) draft = some last ∧
      last.Holds limit (members ++ done) := by
  -- Every member taken in moves to those that are done, which keeps the keys distinct.
  induction members generalizing draft done with
  | nil => exact ⟨draft, rfl, h⟩
  | cons m members ih =>
    obtain ⟨hm, hothers⟩ := List.forall_mem_cons.1 hfits
    obtain ⟨hfresh, -⟩ := List.pairwise_cons.1 hdistinct
    obtain ⟨next, htake, hnext⟩ := h.take? hm fun n hn => hfresh n (List.mem_append_right _ hn)
    have hmoved : (members ++ m :: done).Perm (m :: (members ++ done)) := List.perm_middle
    have hdistinct' : Distinct (members ++ m :: done) :=
      (hmoved.pairwise_iff fun hab => hab.symm).2 hdistinct
    obtain ⟨last, hlast, hholds⟩ := ih hnext hdistinct' hothers
    refine ⟨last, ?_, hholds.of_perm hmoved⟩
    rw [List.foldlM_cons, htake]
    exact hlast

theorem fits_of_foldlM {last : Draft} (h : members.foldlM (Draft.take? limit) draft = some last) :
    ∀ m ∈ members, Fits limit m := by
  induction members generalizing draft with
  | nil => simp
  | cons m members ih =>
    rw [List.foldlM_cons] at h
    obtain ⟨next, htake, hrest⟩ := Option.bind_eq_some_iff.1 h
    exact List.forall_mem_cons.2 ⟨fits_of_take? htake, ih hrest⟩

end Draft

/-- The record that members describe. All of them can be read; one is the tag and one the notation,
which is empty if it is missing; the parameters are the entries of all others. -/
structure Describes (limit : Nat) (members : List (String × Term)) (r : Record) : Prop where
  fits : ∀ m ∈ members, Fits limit m
  family : ("ruleFormat", .string r.family) ∈ members
  label : ("ruleString", .string r.label) ∈ members ∨
    r.label = "" ∧ ∀ m ∈ members, m.1 ≠ "ruleString"
  params (e : String × Value) : e ∈ r.params.entries ↔ IsParam limit members e

theorem Describes.of_perm {r : Record} (h : Describes limit members r)
    (hperm : members.Perm members') : Describes limit members' r where
  fits m hm := h.fits m (hperm.mem_iff.2 hm)
  family := hperm.mem_iff.1 h.family
  label := h.label.imp hperm.mem_iff.1 fun hnone =>
    ⟨hnone.1, fun m hm => hnone.2 m (hperm.mem_iff.2 hm)⟩
  params e := (h.params e).trans (IsParam.perm_iff hperm)

/-- A draft that holds all members becomes the record that they describe. -/
theorem Draft.Holds.record?_eq_some_iff {draft : Draft} (h : draft.Holds limit members)
    (hfits : ∀ m ∈ members, Fits limit m) {r : Record} :
    draft.record? = some r ↔ Describes limit members r := by
  rw [Draft.record?, Option.map_eq_some_iff]
  constructor
  · rintro ⟨family, hfamily, rfl⟩
    refine ⟨hfits, (h.family family).1 hfamily, ?_, h.params⟩
    cases hlabel : draft.label with
    | some s => exact .inl ((h.label s).1 hlabel)
    | none =>
      refine .inr ⟨rfl, fun m hm hkey => ?_⟩
      -- A notation is a string, which the draft would hold.
      cases hfits m hm with
      | tag s =>
        have hne : "ruleFormat" ≠ "ruleString" := by decide
        exact hne hkey
      | label s => cases hlabel.symm.trans ((h.label s).2 hm)
      | param _ hne _ => exact hne hkey
  · intro hr
    obtain ⟨family, label, params⟩ := r
    refine ⟨family, (h.family family).2 hr.family, ?_⟩
    have hparams : draft.params = params :=
      eq_of_mem_iff fun e => (h.params e).trans (hr.params e).symm
    have hlabel : draft.label.getD "" = label := by
      rcases hr.label with hlabel | ⟨rfl, hnone⟩
      · rw [(h.label label).2 hlabel, Option.getD_some]
      · rw [Option.eq_none_iff_forall_ne_some.2 fun s hs => hnone _ ((h.label s).1 hs) rfl,
          Option.getD_none]
    rw [hparams, hlabel]

/-- A record is read from members with distinct keys exactly when they describe it. -/
theorem ofMembers?_eq_some_iff (hdistinct : Distinct members) {r : Record} :
    ofMembers? limit members = some r ↔ Describes limit members r := by
  have hfold (hfits : ∀ m ∈ members, Fits limit m) :
      ∃ last, members.foldlM (Draft.take? limit) {} = some last ∧ last.Holds limit members := by
    have hnil : Distinct (members ++ []) := by rwa [List.append_nil]
    simpa only [List.append_nil] using Draft.holds_nil.foldlM hnil hfits
  rw [ofMembers?]
  constructor
  · intro h
    obtain ⟨draft, hdraft, hrecord⟩ := Option.bind_eq_some_iff.1 h
    have hfits := Draft.fits_of_foldlM hdraft
    obtain ⟨last, hlast, hholds⟩ := hfold hfits
    obtain rfl : draft = last := Option.some.inj (hdraft.symm.trans hlast)
    exact (hholds.record?_eq_some_iff hfits).1 hrecord
  · intro hr
    obtain ⟨last, hlast, hholds⟩ := hfold hr.fits
    rw [hlast, Option.bind_some]
    exact (hholds.record?_eq_some_iff hr.fits).2 hr

/-- In every layout, a text of members with distinct keys is read as the record that they
describe. -/
theorem parse_eq_ok_iff (hdistinct : Distinct members) {text : String}
    (h : (Term.object members).HasText text) {r : Record} :
    parse text = .ok r ↔ Describes (Json.nestingLimit - 1) members r := by
  have hread : (parse text).toOption = ofMembers? (Json.nestingLimit - 1) members :=
    h.readText fun hspelled => yields_read hspelled _
  rw [← ofMembers?_eq_some_iff hdistinct, ← hread, toOption_eq_some_iff]

/-! ## Order -/

/-- A text of members with distinct keys is read as the record that they describe: the tag and the
notation are the members of these names, and the parameters are all others. A text of the same
members in another order is refused if the first is, and else it is read as an equal record, which
describes an equal rule or is refused as well. -/
theorem parse_ignores_order (hdistinct : Distinct members) (hperm : members.Perm members')
    {text text' : String} (h : (Term.object members).HasText text)
    (h' : (Term.object members').HasText text') :
    (∀ r, parse text = .ok r ↔ Describes (Json.nestingLimit - 1) members r) ∧
      Agree (fun r r' => r = r' ∧ r.equals r' = true ∧
        Agree (fun s s' => s = s' ∧ s.equals s' = true) r.toRule r'.toRule)
        (parse text) (parse text') := by
  have hdistinct' : Distinct members' := (hperm.pairwise_iff fun hab => hab.symm).1 hdistinct
  refine ⟨fun r => parse_eq_ok_iff hdistinct h, agree_of_forall_iff (fun r => ?_) fun r hr => ?_⟩
  · rw [parse_eq_ok_iff hdistinct h, parse_eq_ok_iff hdistinct' h']
    exact ⟨fun hr => hr.of_perm hperm, fun hr => hr.of_perm hperm.symm⟩
  · exact ⟨rfl, r.equals_self, agree_of_forall_iff (fun s => Iff.rfl) fun s hs =>
      ⟨rfl, Rule.equals_self (isFinite_of_toRule hs)⟩⟩

/-- A vote on five neighbours. -/
def fiveVotes : List (String × Term) :=
  [("vote", .array [.number ⟨false, ['5'], [], none⟩]), ("ruleFormat", .string "vote")]

theorem spelledAs_five : (Term.array [.number ⟨false, ['5'], [], none⟩]).SpelledAs
    ['[', '5', ']'] := by
  have hfive : Json.Numeral.IsProper ⟨false, ['5'], [], none⟩ :=
    ⟨⟨by simp [IsDigits], by simp, by simp⟩, by simp [IsDigits], by simp⟩
  exact .array (.cons (.number hfive.spells_text) .nil)
    (.some Json.blank_nil (.done Json.blank_nil))

theorem fiveVotes_hasText :
    (Term.object fiveVotes).HasText "\x7b\"vote\":[5],\"ruleFormat\":\"vote\"\x7d" := by
  have htag : (Term.string "vote").SpelledAs (Json.stringText "vote").toList :=
    .string (Json.quotes_stringText "vote")
  refine ⟨[], _, [], Json.blank_nil, .object (.cons (Json.quotes_stringText _) Json.blank_nil
    Json.blank_nil spelledAs_five (.cons (Json.quotes_stringText _) Json.blank_nil Json.blank_nil
      htag .nil))
    (.some Json.blank_nil (.next Json.blank_nil Json.blank_nil (.done Json.blank_nil))),
    Json.blank_nil, ?_⟩
  decide +kernel

/-- The same members the other way round, with blanks and an escape. -/
theorem reverse_fiveVotes_hasText : (Term.object fiveVotes.reverse).HasText
    "\n\x7b \"ruleFormat\" : \"\\u0076ote\", \"vote\":[5] \x7d" := by
  have hspace : Blank [' '] := by decide
  have hletters : List.Forall₂ Json.Spells [['\\', 'u', '0', '0', '7', '6'], ['o'], ['t'], ['e']]
      "vote".toList :=
    .cons (.code (by decide)) (.cons (.plain (by decide) (by decide) (by decide))
      (.cons (.plain (by decide) (by decide) (by decide))
        (.cons (.plain (by decide) (by decide) (by decide)) .nil)))
  refine ⟨['\n'], _, [], by decide, .object (.cons (Json.quotes_stringText _) hspace hspace
    (.string (.mk hletters)) (.cons (Json.quotes_stringText _) Json.blank_nil Json.blank_nil
      spelledAs_five .nil)) (.some hspace (.next Json.blank_nil hspace (.done hspace))),
    Json.blank_nil, ?_⟩
  decide +kernel

/-- Both ways, the vote is read. -/
theorem fiveVotes_read_either_way : Distinct fiveVotes ∧ ∃ r,
    parse "\x7b\"vote\":[5],\"ruleFormat\":\"vote\"\x7d" = .ok r ∧
      parse "\n\x7b \"ruleFormat\" : \"\\u0076ote\", \"vote\":[5] \x7d" = .ok r ∧
        Describes (Json.nestingLimit - 1) fiveVotes r := by
  have hdistinct : Distinct fiveVotes := by
    simp [Distinct, fiveVotes]
  obtain ⟨hread, hagree⟩ := parse_ignores_order hdistinct (List.reverse_perm fiveVotes).symm
    fiveVotes_hasText reverse_fiveVotes_hasText
  obtain ⟨r, hr, -⟩ := exists_of_any (p := fun _ => true) (by decide +kernel :
    (parse "\x7b\"vote\":[5],\"ruleFormat\":\"vote\"\x7d").toOption.any _ = true)
  refine ⟨hdistinct, r, hr, ?_, (hread r).1 hr⟩
  rw [hr] at hagree
  generalize parse "\n\x7b \"ruleFormat\" : \"\\u0076ote\", \"vote\":[5] \x7d" = outcome at hagree ⊢
  cases hagree with
  | ok h => rw [h.1]

end Record

end CellularShader
