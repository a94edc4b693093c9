/- # Records read back

The tag and the notation of a record stand among its parameters and are told apart by their keys. A
record whose parameters leave these two keys alone is read from every layout, its floats as their
own texts are read. Every record that is read is of this kind. Without floats it is read back as it
is.
-/

import CellularShader.Proofs.Json.Writable
import CellularShader.Record

namespace CellularShader

open Json (Blank Ends Listed Number ReadAs Reader TakesIn Value Written WrittenMembers stringText)

/-! ## Equality -/

theorem Json.Number.equals_self (n : Number) : n.equals n = true := by
  cases n with
  | integer n _ => simp [equals]
  | float x hx => exact Binary.equals_self hx

namespace Json.Value

mutual

/-- Every value equals itself, since its floats are finite. -/
theorem equals_self : (v : Value) → v.equals v = true
  | null => rfl
  | bool b => by simp [equals]
  | number n => n.equals_self
  | string text => by simp [equals]
  | array elements => equalElements_self elements
  | object members => equalMembers_self members

theorem equalElements_self : (elements : List Value) → equalElements elements elements = true
  | [] => rfl
  | v :: elements => by
    rw [equalElements, equals_self v, equalElements_self elements]
    rfl

theorem equalMembers_self :
    (members : List (String × Value)) → equalMembers members members = true
  | [] => rfl
  | (key, v) :: members => by
    rw [equalMembers, equals_self v, equalMembers_self members]
    simp

end

end Json.Value

namespace Record

/-- Records whose parameters are integral values under keys of their own. -/
structure IsPortable (r : Record) : Prop where
  tag_free : ∀ m ∈ r.params.entries, m.1 ≠ "ruleFormat"
  label_free : ∀ m ∈ r.params.entries, m.1 ≠ "ruleString"
  integral : ∀ m ∈ r.params.entries, m.2.IsIntegral

theorem equals_self (r : Record) : r.equals r = true := by
  simp [equals, Value.equalMembers_self]

/-! ## Reading -/

theorem readText_stringText (s : String) {gap : List Char} (hgap : Blank gap) (rest : List Char) :
    readText (':' :: (gap ++ ((stringText s).toList ++ rest))) = .ok (s, rest) := by
  rw [readText, Reader.bind_of_ok (Json.readColon_append _), Json.toList_stringText,
    List.cons_append, Json.skipBlanks_append hgap rfl, List.append_assoc]
  exact Json.readString_escaped s rest

variable {limit : Nat} {draft : Draft} {text rest : List Char}

theorem readMember_tag {s : String} (hfree : draft.family = none)
    (h : readText text = .ok (s, rest)) :
    readMember limit "ruleFormat" draft text = .ok ({ draft with family := some s }, rest) := by
  simp only [readMember, if_pos, hfree, Option.isSome_none, Bool.false_eq_true, if_false]
  rw [Reader.bind_of_ok h]
  rfl

theorem readMember_label {s : String} (hfree : draft.label = none)
    (h : readText text = .ok (s, rest)) :
    readMember limit "ruleString" draft text = .ok ({ draft with label := some s }, rest) := by
  have hkey : "ruleString" ≠ "ruleFormat" := by decide
  simp only [readMember, if_neg hkey, if_pos, hfree, Option.isSome_none, Bool.false_eq_true,
    if_false]
  rw [Reader.bind_of_ok h]
  rfl

theorem readMember_param {key : String} (htag : key ≠ "ruleFormat") (hlabel : key ≠ "ruleString")
    {v : Value} (h : Json.readValue limit text = .ok (v, rest)) :
    readMember limit key draft (':' :: text) =
      .ok ({ draft with params := draft.params.insert key v }, rest) := by
  rw [readMember, if_neg htag, if_neg hlabel, Reader.bind_of_ok (Json.readColon_append text),
    Reader.bind_of_ok h]
  rfl

/-- Records whose parameters have texts that nest no deeper than a limit, under keys of their
own. -/
structure IsWritable (limit : Nat) (r : Record) : Prop where
  tag_free : ∀ m ∈ r.params.entries, m.1 ≠ "ruleFormat"
  label_free : ∀ m ∈ r.params.entries, m.1 ≠ "ruleString"
  params : ∀ m ∈ r.params.entries, m.2.IsWritable limit

/-- The record that the text of a record is read as. -/
def reread (r : Record) : Record := { r with params := r.params.map Value.reread }

/-- Parameters are taken in one after another, without a change of tag and notation. -/
theorem IsWritable.takesIn_params {r : Record} (hr : r.IsWritable limit)
    {texts : List (List Char)}
    (h : WrittenMembers (Value.memberDocuments r.params.entries) texts) :
    TakesIn (readMember limit) ⟨some r.family, some r.label, .empty⟩ texts
      ⟨some r.family, some r.label, r.params.map Value.reread⟩ := by
  have htakes : ∃ last : Draft, (last.family = some r.family ∧ last.label = some r.label ∧
      last.params.entries = r.params.entries.map fun m => (m.1, m.2.reread)) ∧
      TakesIn (readMember limit) ⟨some r.family, some r.label, .empty⟩ texts last := by
    -- The draft holds the parameters so far, in the order of their keys.
    refine h.takesIn (fun before (draft : Draft) => draft.family = some r.family ∧
      draft.label = some r.label ∧
      draft.params.entries = before.map fun m => (m.1, m.2.reread)) ⟨rfl, rfl, rfl⟩ ?_
    rintro before ⟨key, v⟩ after draft hsplit ⟨hfamily, hlabel, hparams⟩ hmem text htext
    have hread := (hr.params _ hmem).readAs htext
    refine ⟨{ draft with params := draft.params.insert key v.reread }, ⟨hfamily, hlabel, ?_⟩,
      fun gap rest hgap hends => readMember_param (hr.tag_free _ hmem) (hr.label_free _ hmem)
        (hread.reads hgap hends)⟩
    have hlast : ∀ e ∈ before.map (fun m => (m.1, m.2.reread)), e.1 < key :=
      List.forall_mem_map.2 (SortedMap.lt_of_split r.params.ascending hsplit)
    change SortedMap.insertEntry key v.reread draft.params.entries = _
    rw [hparams, SortedMap.insertEntry_of_last v.reread hlast, List.map_append]
    rfl
  obtain ⟨⟨family, label, params⟩, ⟨rfl, rfl, hparams⟩, htakes⟩ := htakes
  obtain rfl : params = r.params.map Value.reread := SortedMap.eq_of_entries hparams
  exact htakes

theorem IsWritable.takesIn {r : Record} (hr : r.IsWritable limit) {texts : List (List Char)}
    (h : WrittenMembers ([("ruleFormat", .string r.family), ("ruleString", .string r.label)] ++
      Value.memberDocuments r.params.entries) texts) :
    TakesIn (readMember limit) {} texts
      ⟨some r.family, some r.label, r.params.map Value.reread⟩ := by
  -- The two members with fixed keys are written before the parameters.
  obtain ⟨gap, tag, _, rfl, hgap, htag, h⟩ := h.exists_of_cons
  obtain ⟨gap', label, _, rfl, hgap', hlabel, h⟩ := h.exists_of_cons
  rw [htag.eq_of_string, hlabel.eq_of_string]
  exact .cons (fun rest _ => readMember_tag rfl (readText_stringText _ hgap rest))
    (.cons (fun rest _ => readMember_label rfl (readText_stringText _ hgap' rest))
      (hr.takesIn_params h))

theorem read_skipBlanks (limit : Nat) (text : List Char) :
    read limit (Json.skipBlanks text) = read limit text := by
  rw [read, read, Json.skipBlanks_idem]

/-- In every layout, a record that nests no deeper than the limit is read. -/
theorem IsWritable.readAs {r : Record} (hr : r.IsWritable limit) {text : List Char}
    (h : Written r.document text) : ReadAs (read limit) text r.reread := by
  rw [document] at h
  cases h with
  | object hmembers hinside =>
    refine .of_skips (read_skipBlanks limit) rfl (by decide) fun rest _ => ?_
    have hobject := Json.readObject_listed hinside (hr.takesIn hmembers) rest
    change readMembers limit _ = _
    rw [List.append_assoc, readMembers, List.cons_append, List.nil_append,
      Reader.bind_of_ok hobject]
    rfl

/-! ## Records that are read -/

/-- What has been read of a record can be written again. -/
def Draft.IsWritable (limit : Nat) (draft : Draft) : Prop :=
  ∀ m ∈ draft.params.entries, m.1 ≠ "ruleFormat" ∧ m.1 ≠ "ruleString" ∧ m.2.IsWritable limit

theorem isWritable_readMember {limit : Nat} {key : String} {draft draft' : Draft}
    {text rest : List Char} (h : readMember limit key draft text = .ok (draft', rest))
    (hdraft : draft.IsWritable limit) : draft'.IsWritable limit := by
  unfold readMember at h
  split_ifs at h with htag _ hlabel
  · obtain ⟨_, _, hthrow, -⟩ := Reader.exists_of_bind_ok h
    cases hthrow
  · obtain ⟨_, _, -, h⟩ := Reader.exists_of_bind_ok h
    cases h
    exact hdraft
  · obtain ⟨_, _, hthrow, -⟩ := Reader.exists_of_bind_ok h
    cases hthrow
  · obtain ⟨_, _, -, h⟩ := Reader.exists_of_bind_ok h
    cases h
    exact hdraft
  · obtain ⟨_, _, -, h⟩ := Reader.exists_of_bind_ok h
    obtain ⟨v, _, hv, h⟩ := Reader.exists_of_bind_ok h
    cases h
    -- Only a key other than the two fixed ones is put among the parameters.
    have hvalues : ∀ m ∈ SortedMap.insertEntry key v draft.params.entries, m.2.IsWritable limit :=
      SortedMap.forall_insertEntry (Json.isWritable_readValue hv) fun m hm => (hdraft m hm).2.2
    intro m hm
    rcases SortedMap.key_mem_insertEntry hm with hkey | ⟨n, hn, hkey⟩
    · exact ⟨hkey ▸ htag, hkey ▸ hlabel, hvalues m hm⟩
    · exact ⟨hkey ▸ (hdraft n hn).1, hkey ▸ (hdraft n hn).2.1, hvalues m hm⟩

/-- A record that is read has a text that nests no deeper. -/
theorem isWritable_of_read {limit : Nat} {text rest : List Char} {r : Record}
    (h : read limit text = .ok (r, rest)) : r.IsWritable limit := by
  rw [read] at h
  split at h
  · obtain ⟨draft, _, hdraft, hrecord⟩ := Reader.exists_of_bind_ok h
    have hwritable : draft.IsWritable limit :=
      Json.invariant_of_readMembers isWritable_readMember hdraft fun m hm =>
        absurd hm List.not_mem_nil
    cases hfamily : draft.family with
    | none =>
      rw [hfamily] at hrecord
      cases hrecord
    | some family =>
      rw [hfamily] at hrecord
      cases hrecord
      exact ⟨fun m hm => (hwritable m hm).1, fun m hm => (hwritable m hm).2.1,
        fun m hm => (hwritable m hm).2.2⟩
  · cases h

/-! ## Records without floats -/

theorem IsPortable.isWritable {r : Record} (hr : r.IsPortable)
    (hdepth : r.document.depth ≤ limit + 1) : r.IsWritable limit where
  tag_free := hr.tag_free
  label_free := hr.label_free
  params m hm := by
    have hparams : Json.Document.membersDepth (Value.memberDocuments r.params.entries) ≤ limit := by
      simp only [document, Json.Document.depth, List.cons_append, List.nil_append,
        Json.Document.membersDepth] at hdepth
      omega
    exact (hr.integral m hm).isWritable ((Value.depth_le_memberDocuments hm).trans hparams)

theorem IsPortable.reread_eq {r : Record} (hr : r.IsPortable) : r.reread = r := by
  rw [reread, SortedMap.map_eq_self fun m hm => (hr.integral m hm).reread_eq]

end Record

end CellularShader
