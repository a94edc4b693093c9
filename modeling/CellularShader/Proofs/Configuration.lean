/- # Configurations survive their text

A configuration is written as an object with a member for each of its parts, and every part is read
back where its member stands. What the reader cannot tell apart is left out: a fixed text that names
a policy, and parameters under the keys of the tag and the notation.
-/

import CellularShader.Proofs.Neighbourhood.Reading
import CellularShader.Proofs.Record
import CellularShader.Proofs.Store

namespace CellularShader

open Json (Blank Ends Listed ReadAs Reader TakesIn Value Written WrittenMembers stringText)

/-! ## Edges -/

namespace Edge

/-- Policies that their text stands for: a fixed text does not name another policy. -/
def IsPortable (edge : Edge) : Prop := edge ≠ .literal "wrap" ∧ edge ≠ .literal "clamp"

theorem IsPortable.ofText_text {edge : Edge} (h : edge.IsPortable) : ofText edge.text = edge := by
  obtain ⟨hwrap, hclamp⟩ := h
  cases edge with
  | wrap => rfl
  | clamp => rfl
  | literal text =>
    have hwrap : text ≠ "wrap" := fun heq => hwrap (heq ▸ rfl)
    have hclamp : text ≠ "clamp" := fun heq => hclamp (heq ▸ rfl)
    simp [ofText, Edge.text, hwrap, hclamp]

theorem IsPortable.readAs {edge : Edge} (h : edge.IsPortable) (limit : Nat) :
    ReadAs (read limit) (stringText edge.text).toList edge where
  starts := (Json.readAs_string edge.text limit).starts
  reads {gap rest} hgap hrest := by
    rw [read, Reader.bind_of_ok ((Json.readAs_string edge.text limit).reads hgap hrest)]
    exact Reader.lift_of_ok (by rw [ofValue, h.ofText_text]) rest

end Edge

namespace Configuration

/-- Configurations that their text stands for. -/
structure IsPortable (c : Configuration) : Prop where
  rule : c.rule.IsPortable
  offsets : ∀ o ∈ c.neighbourhood, o.IsSmallHalf
  edge : ∀ edge, c.edge = some edge → edge.IsPortable
  depth : c.document.depth ≤ Json.nestingLimit

/-! ## Members -/

variable {draft : Draft} {text rest : List Char}

theorem readMember_rule {r : Record} (hfree : draft.rule = none)
    (h : readRule text = .ok (r, rest)) :
    readMember "rule" draft (':' :: text) = .ok ({ draft with rule := some r }, rest) := by
  simp only [readMember, if_pos, hfree, Option.isSome_none, Bool.false_eq_true, if_false]
  rw [Reader.bind_of_ok (Json.readColon_append text), Reader.bind_of_ok h]
  rfl

theorem readMember_neighbourhood {n : Neighbourhood} (hfree : draft.neighbourhood = none)
    (h : Neighbourhood.read text = .ok (n, rest)) :
    readMember "neighbourhood" draft (':' :: text) =
      .ok ({ draft with neighbourhood := some n }, rest) := by
  have hkey : "neighbourhood" ≠ "rule" := by decide
  simp only [readMember, if_neg hkey, if_pos, hfree, Option.isSome_none, Bool.false_eq_true,
    if_false]
  rw [Reader.bind_of_ok (Json.readColon_append text), Reader.bind_of_ok h]
  rfl

theorem readMember_edge {edge : Option Edge} (hfree : draft.edge = none)
    (h : readEdge text = .ok (edge, rest)) :
    readMember "outOfBoundValue" draft (':' :: text) =
      .ok ({ draft with edge := some edge }, rest) := by
  have hrule : "outOfBoundValue" ≠ "rule" := by decide
  have hneighbourhood : "outOfBoundValue" ≠ "neighbourhood" := by decide
  simp only [readMember, if_neg hrule, if_neg hneighbourhood, if_pos, hfree, Option.isSome_none,
    Bool.false_eq_true, if_false]
  rw [Reader.bind_of_ok (Json.readColon_append text), Reader.bind_of_ok h]
  rfl

theorem readEdge_stringText {edge : Edge} (h : edge.IsPortable) {gap rest : List Char}
    (hgap : Blank gap) (hrest : Ends rest) :
    readEdge (gap ++ ((stringText edge.text).toList ++ rest)) = .ok (some edge, rest) := by
  have hread := (h.readAs innerLimit).ok hrest
  rw [Json.toList_stringText, List.cons_append] at hread ⊢
  rw [readEdge, Json.skipBlanks_append hgap rfl]
  exact Reader.map_of_ok hread some

theorem takesIn_edge {edge : Option Edge} (h : ∀ e, edge = some e → e.IsPortable)
    (hfree : draft.edge = none) {texts : List (List Char)}
    (hwritten : WrittenMembers
      (edge.map fun edge => ("outOfBoundValue", edge.document)).toList texts) :
    TakesIn readMember draft texts { draft with edge := edge.map some } := by
  cases edge with
  -- Without a policy no member is written, and the draft stays as it is.
  | none =>
    cases hwritten
    rw [Option.map_none, ← hfree]
    exact .nil draft
  | some edge =>
    obtain ⟨gap, text, _, rfl, hgap, htext, hnone⟩ := hwritten.exists_of_cons
    cases hnone
    rw [htext.eq_of_string]
    exact .cons (fun rest hends => readMember_edge hfree
      (readEdge_stringText (h edge rfl) hgap hends)) (.nil _)

/-- Configurations that have a text. The rule stands one level below the configuration, and its
parameters one level below that. -/
structure IsWritable (c : Configuration) : Prop where
  rule : c.rule.IsWritable (innerLimit - 1)
  offsets : ∀ o ∈ c.neighbourhood, o.IsFinite
  edge : ∀ edge, c.edge = some edge → edge.IsPortable

/-- The configuration that the text of a configuration is read as. -/
def reread (c : Configuration) : Configuration :=
  { c with rule := c.rule.reread, neighbourhood := c.neighbourhood.reread }

theorem IsWritable.takesIn {c : Configuration} (hc : c.IsWritable) {texts : List (List Char)}
    (h : WrittenMembers ([("rule", c.rule.document), ("neighbourhood", c.neighbourhood.document)] ++
      (c.edge.map fun edge => ("outOfBoundValue", edge.document)).toList) texts) :
    TakesIn readMember {} texts
      ⟨some c.rule.reread, some c.neighbourhood.reread, c.edge.map some⟩ := by
  obtain ⟨gap, text, _, rfl, hgap, hrule, h⟩ := h.exists_of_cons
  obtain ⟨gap', text', _, rfl, hgap', hneighbourhood, h⟩ := h.exists_of_cons
  have hreadRule := hc.rule.readAs hrule
  have hreadNeighbourhood := Neighbourhood.readAs hc.offsets hneighbourhood
  exact .cons (fun rest hends => readMember_rule rfl (hreadRule.reads hgap hends))
    (.cons (fun rest hends => readMember_neighbourhood rfl (hreadNeighbourhood.reads hgap' hends))
      (takesIn_edge hc.edge rfl h))

/-! ## Whole texts -/

theorem read_skipBlanks (text : List Char) : read (Json.skipBlanks text) = read text := by
  rw [read, read, Json.skipBlanks_idem]

/-- In every layout, a configuration that has a text is read. -/
theorem IsWritable.readAs {c : Configuration} (hc : c.IsWritable) {text : List Char}
    (h : Written c.document text) : ReadAs read text c.reread := by
  rw [document] at h
  cases h with
  | object hmembers hinside =>
    refine .of_skips read_skipBlanks rfl (by decide) fun rest _ => ?_
    have hobject := Json.readObject_listed hinside (hc.takesIn hmembers) rest
    change readMembers _ = _
    rw [List.append_assoc, readMembers, List.cons_append, List.nil_append,
      Reader.bind_of_ok hobject]
    cases c with
    | mk rule neighbourhood edge => cases edge <;> rfl

theorem IsWritable.parse_eq {c : Configuration} (hc : c.IsWritable) {text : String}
    (h : Written c.document text.toList) : parse text = .ok c.reread := by
  rw [parse, (hc.readAs h).readText]
  rfl

theorem IsPortable.isWritable {c : Configuration} (hc : c.IsPortable) : c.IsWritable where
  rule := by
    refine hc.rule.isWritable ?_
    have := hc.depth
    simp only [document, Json.Document.depth, List.cons_append, List.nil_append,
      Json.Document.membersDepth] at this
    simp only [innerLimit, Json.nestingLimit] at this ⊢
    omega
  offsets o ho := (hc.offsets o ho).isFinite
  edge := hc.edge

theorem IsPortable.parse_eq {c : Configuration} (hc : c.IsPortable) {text : String}
    (h : Written c.document text.toList) : parse text = .ok c := by
  rw [hc.isWritable.parse_eq h, reread, hc.rule.reread_eq, Neighbourhood.reread_eq hc.offsets]

theorem IsPortable.equals_self {c : Configuration} (hc : c.IsPortable) : c.equals c = true := by
  simp [equals, Record.equals_self, Neighbourhood.equals_self hc.offsets]

/-- A portable configuration is read back from its compact and from its indented text, and loaded
back from every name it can be saved under. -/
theorem survives_text {c : Configuration} (hc : c.IsPortable) :
    parse c.document.compact = .ok c ∧ parse c.document.pretty = .ok c ∧ c.equals c = true ∧
      ∀ (store : Store) (name : String),
        (store.Accepts name ↔ ∃ saved, c.save store name = .ok saved) ∧
        ∀ saved, c.save store name = .ok saved → load saved name = .ok c := by
  have hpretty : parse c.document.pretty = .ok c := hc.parse_eq c.document.written_pretty
  refine ⟨hc.parse_eq c.document.written_compact, hpretty, hc.equals_self, fun store name => ?_⟩
  -- Saving only renames the errors of writing.
  have hsave (saved : Store) : c.save store name = .ok saved ↔
      store.write name c.document.pretty.toUTF8 = .ok saved := by
    rw [save]
    cases store.write name c.document.pretty.toUTF8 <;> simp [Except.mapError]
  refine ⟨?_, fun saved hsaved => ?_⟩
  · simp only [hsave]
    exact Store.accepts_iff_write
  · rw [load, Store.readText_of_write ((hsave saved).1 hsaved)]
    exact hpretty

/-! ## A configuration to read back -/

/-- A configuration of an unknown family, with characters that need escapes, both ends of the range
of integers, and a negative zero beside the largest component. -/
def specimen : Configuration where
  rule :=
    { family := "no such family"
      label := "\"B3/S23\" \\ π 🧬\n\x01"
      params := ⟨[("", .null), ("limits", .array [.number (.integer (-2 ^ 63) (by decide)),
        .number (.integer (2 ^ 64 - 1) (by decide)),
        .object [("on", .bool true), ("é", .string "\t/")]]), ("none", .object [])], by decide⟩ }
  neighbourhood := [⟨.ofRatio .single true 0 1, .ofInt .single (2 ^ 23), .ofRatio .single true 1 2⟩]
  edge := some (.literal "Wrap")

theorem isPortable_specimen : specimen.IsPortable where
  rule := {
    tag_free := by decide
    label_free := by decide
    integral := by
      have hlimits : Value.IsIntegral (.array [.number (.integer (-2 ^ 63) (by decide)),
          .number (.integer (2 ^ 64 - 1) (by decide)),
          .object [("on", .bool true), ("é", .string "\t/")]]) := by
        refine .array ?_
        simp only [List.forall_mem_cons]
        exact ⟨.integer _, .integer _,
          .object (by simpa using ⟨.bool true, .string _⟩) (by decide), by simp⟩
      simp only [specimen, List.forall_mem_cons]
      exact ⟨.null, hlimits, .object (by simp) .nil, by simp⟩ }
  offsets := by
    simp only [specimen, List.mem_singleton, forall_eq]
    exact ⟨⟨by decide +kernel, by decide +kernel, 0, by decide +kernel⟩,
      ⟨by decide +kernel, by decide +kernel, 2 ^ 24, by decide +kernel⟩,
      ⟨by decide +kernel, by decide +kernel, -1, by decide +kernel⟩⟩
  edge := by
    rintro _ ⟨⟩
    exact ⟨by decide, by decide⟩
  depth := by decide

theorem accepts_specimen : (Store.empty ["shaders"]).Accepts "shaders/specimen.json" :=
  ⟨["specimen.json", "shaders"], rfl, by decide, by decide⟩

theorem specimen_survives : specimen.IsPortable ∧
    parse specimen.document.compact = .ok specimen ∧
    parse specimen.document.pretty = .ok specimen ∧
    ∃ saved, specimen.save (Store.empty ["shaders"]) "shaders/specimen.json" = .ok saved ∧
      load saved "shaders/specimen.json" = .ok specimen := by
  obtain ⟨hcompact, hpretty, -, hfiles⟩ := survives_text isPortable_specimen
  obtain ⟨haccepts, hload⟩ := hfiles (Store.empty ["shaders"]) "shaders/specimen.json"
  obtain ⟨saved, hsaved⟩ := haccepts.1 accepts_specimen
  exact ⟨isPortable_specimen, hcompact, hpretty, saved, hsaved, hload saved hsaved⟩

end Configuration

end CellularShader
