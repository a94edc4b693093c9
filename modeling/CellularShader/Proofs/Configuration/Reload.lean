/- # Configurations saved and loaded again

A configuration that was read can be written, and what is written nests no deeper than what was
read. Only offsets can stand in the way: a component beyond the range of 32 bits becomes infinite
when it is read, infinity is written `null`, and `null` is no component.
-/

import CellularShader.Proofs.Edge.Codec
import CellularShader.Proofs.Json.Refusal
import CellularShader.Proofs.Outcome

namespace CellularShader

open Json (Ends Fault FloatStyle Listed ReadAs Reader Refuses TakesIn Written)

/-! ## Offsets out of range -/

namespace Offset

/-- The fault of finding no number where a component should be. -/
def noComponent : Fault := .wrongType .null .single

variable {x : Single} {text : List Char}

theorem readAs_of_written (hx : x.isFinite = true)
    (h : Written (FloatStyle.single.document x) text) :
    ReadAs readComponent text (rereadComponent x) := by
  rw [FloatStyle.document, if_pos hx] at h
  cases h
  exact readAs_component hx

theorem refuses_of_written (hx : ¬ x.isFinite = true)
    (h : Written (FloatStyle.single.document x) text) : Refuses readComponent text noComponent := by
  rw [FloatStyle.document, if_neg hx] at h
  cases h
  exact .of_skips readComponent_skipBlanks rfl (by decide) fun rest _ => rfl

theorem readComponentAt_of_refused (position : Nat) {element rest : List Char} {fault : Fault}
    (hnext : Json.nextElement (position = 0) text = .ok (true, element ++ rest))
    (hread : Refuses readComponent element fault) (hrest : Ends rest) :
    readComponentAt position text = .error fault := by
  rw [readComponentAt, Reader.bind_of_ok hnext, if_pos rfl]
  exact hread.error hrest

/-- The first component that is out of range is the one that is refused. -/
theorem readComponents_of_infinite {o : Offset} (ho : ¬ o.IsFinite) {tx ty tz inside : List Char}
    (h : Listed [tx, ty, tz] inside) (hx : Written (FloatStyle.single.document o.x) tx)
    (hy : Written (FloatStyle.single.document o.y) ty)
    (hz : Written (FloatStyle.single.document o.z) tz) (rest : List Char) :
    readComponents (inside ++ ']' :: rest) = .error noComponent := by
  have hclose : Json.endsValue ']' = true := rfl
  rw [readComponents]
  by_cases hfiniteX : o.x.isFinite = true
  case neg =>
    have hx := refuses_of_written hfiniteX hx
    obtain ⟨after, hafter, hnext⟩ := h.nextElement hx.starts
    exact Reader.bind_of_error
      (readComponentAt_of_refused 0 (hnext _) hx (hafter.ends hclose rest)) _
  have hx := readAs_of_written hfiniteX hx
  obtain ⟨after, h, hnext⟩ := h.nextElement hx.starts
  rw [Reader.bind_of_ok (readComponentAt_of_next 0 (hnext _) hx (h.ends hclose rest))]
  by_cases hfiniteY : o.y.isFinite = true
  case neg =>
    have hy := refuses_of_written hfiniteY hy
    obtain ⟨after, hafter, hnext⟩ := h.nextElement hy.starts
    exact Reader.bind_of_error
      (readComponentAt_of_refused 1 (hnext _) hy (hafter.ends hclose rest)) _
  have hy := readAs_of_written hfiniteY hy
  obtain ⟨after, h, hnext⟩ := h.nextElement hy.starts
  rw [Reader.bind_of_ok (readComponentAt_of_next 1 (hnext _) hy (h.ends hclose rest))]
  have hz := refuses_of_written (fun hfiniteZ => ho ⟨hfiniteX, hfiniteY, hfiniteZ⟩) hz
  obtain ⟨after, hafter, hnext⟩ := h.nextElement hz.starts
  exact Reader.bind_of_error
    (readComponentAt_of_refused 2 (hnext _) hz (hafter.ends hclose rest)) _

theorem refuses_of_infinite {o : Offset} (ho : ¬ o.IsFinite) (h : Written o.document text) :
    Refuses read text noComponent := by
  rw [document] at h
  cases h with
  | array helements hinside =>
    obtain - | ⟨hx, helements⟩ := helements
    obtain - | ⟨hy, helements⟩ := helements
    obtain - | ⟨hz, helements⟩ := helements
    cases helements
    refine .of_skips read_skipBlanks rfl (by decide) fun rest _ => ?_
    rw [List.append_assoc]
    exact readComponents_of_infinite ho hinside hx hy hz rest

end Offset

/-- The texts of the elements of a list around one of them. -/
theorem Json.WrittenElements.exists_of_append {before after : List Json.Document}
    {d : Json.Document} {texts : List (List Char)}
    (h : WrittenElements (before ++ d :: after) texts) : ∃ textsBefore text textsAfter,
      texts = textsBefore ++ text :: textsAfter ∧ WrittenElements before textsBefore ∧
        Written d text := by
  induction before generalizing texts with
  | nil =>
    obtain - | ⟨hd, -⟩ := h
    exact ⟨[], _, _, rfl, .nil, hd⟩
  | cons e before ih =>
    obtain - | ⟨he, h⟩ := h
    obtain ⟨textsBefore, text, textsAfter, rfl, hbefore, hd⟩ := ih h
    exact ⟨_ :: textsBefore, text, textsAfter, rfl, .cons he hbefore, hd⟩

namespace Neighbourhood

theorem exists_first_infinite {n : Neighbourhood} (hn : ¬ ∀ o ∈ n, o.IsFinite) :
    ∃ before o after, n = before ++ o :: after ∧ (∀ p ∈ before, p.IsFinite) ∧ ¬ o.IsFinite := by
  induction n with
  | nil => simp at hn
  | cons o n ih =>
    by_cases ho : o.IsFinite
    · obtain ⟨before, p, after, rfl, hbefore, hp⟩ :=
        ih fun h => hn (List.forall_mem_cons.2 ⟨ho, h⟩)
      exact ⟨o :: before, p, after, rfl, List.forall_mem_cons.2 ⟨ho, hbefore⟩, hp⟩
    · exact ⟨[], o, n, rfl, by simp, ho⟩

/-- A neighbourhood is refused where its first offset out of range stands. -/
theorem refuses_of_infinite {n : Neighbourhood} (hn : ¬ ∀ o ∈ n, o.IsFinite) {text : List Char}
    (h : Written n.document text) : Refuses read text Offset.noComponent := by
  obtain ⟨before, o, after, rfl, hbefore, ho⟩ := exists_first_infinite hn
  rw [document, List.map_append, List.map_cons] at h
  cases h with
  | array helements hinside =>
    obtain ⟨_, _, _, rfl, hwritten, htext⟩ := helements.exists_of_append
    refine .of_skips read_skipBlanks rfl (by decide) fun rest _ => ?_
    rw [List.append_assoc]
    exact Json.readList_of_refused
      (hwritten.forall₂ fun p hp text htext => (hbefore p hp).readAs htext)
      (Offset.refuses_of_infinite ho htext) hinside rest

end Neighbourhood

/-! ## What is read can be written -/

namespace Configuration

variable {text rest : List Char}

theorem isPortable_of_readEdge {edge : Option Edge} (h : readEdge text = .ok (edge, rest)) :
    ∀ e, edge = some e → e.IsPortable := by
  rw [readEdge] at h
  split at h
  · obtain ⟨_, -, rfl⟩ := Reader.exists_of_map_ok h
    intro e he
    cases he
  · obtain ⟨e, he, rfl⟩ := Reader.exists_of_map_ok h
    rintro _ ⟨⟩
    exact Edge.isPortable_of_read he

/-- What has been read of a configuration apart from its offsets can be written again. -/
structure Draft.IsWritable (draft : Draft) : Prop where
  rule : ∀ r, draft.rule = some r → r.IsWritable (innerLimit - 1)
  edge : ∀ e, draft.edge = some (some e) → e.IsPortable

theorem isWritable_readMember {key : String} {draft draft' : Draft}
    (h : readMember key draft text = .ok (draft', rest)) (hdraft : draft.IsWritable) :
    draft'.IsWritable := by
  unfold readMember at h
  split_ifs at h
  · obtain ⟨_, _, hthrow, -⟩ := Reader.exists_of_bind_ok h
    cases hthrow
  · obtain ⟨_, _, -, h⟩ := Reader.exists_of_bind_ok h
    obtain ⟨r, _, hr, h⟩ := Reader.exists_of_bind_ok h
    cases h
    refine ⟨?_, hdraft.edge⟩
    rintro _ ⟨⟩
    exact Record.isWritable_of_read hr
  · obtain ⟨_, _, hthrow, -⟩ := Reader.exists_of_bind_ok h
    cases hthrow
  · obtain ⟨_, _, -, h⟩ := Reader.exists_of_bind_ok h
    obtain ⟨n, _, -, h⟩ := Reader.exists_of_bind_ok h
    cases h
    exact ⟨hdraft.rule, hdraft.edge⟩
  · obtain ⟨_, _, hthrow, -⟩ := Reader.exists_of_bind_ok h
    cases hthrow
  · obtain ⟨_, _, -, h⟩ := Reader.exists_of_bind_ok h
    obtain ⟨edge, _, hedge, h⟩ := Reader.exists_of_bind_ok h
    cases h
    exact ⟨hdraft.rule, fun e he => isPortable_of_readEdge hedge e (Option.some.inj he)⟩
  · obtain ⟨_, _, -, h⟩ := Reader.exists_of_bind_ok h
    obtain ⟨_, _, -, h⟩ := Reader.exists_of_bind_ok h
    cases h
    exact hdraft

/-- The rule and the policy of a configuration can be written. -/
structure IsFramed (c : Configuration) : Prop where
  rule : c.rule.IsWritable (innerLimit - 1)
  edge : ∀ e, c.edge = some e → e.IsPortable

theorem isFramed_of_readMembers {c : Configuration} (h : readMembers text = .ok (c, rest)) :
    c.IsFramed := by
  obtain ⟨draft, _, hdraft, h⟩ := Reader.exists_of_bind_ok h
  have hwritable : draft.IsWritable :=
    Json.invariant_of_readMembers isWritable_readMember hdraft ⟨nofun, nofun⟩
  cases hrule : draft.rule with
  | none =>
    rw [hrule] at h
    cases h
  | some r =>
    rw [hrule] at h
    cases h
    refine ⟨hwritable.rule r hrule, fun e he => hwritable.edge e ?_⟩
    change draft.edge.getD none = some e at he
    cases hedge : draft.edge with
    | none =>
      rw [hedge] at he
      cases he
    | some edge =>
      rw [hedge] at he
      rw [← he]
      rfl

/-- An element that may be left out is the one that is read or the one that stands for none. -/
theorem exists_of_optional {α β : Type} {reader : Reader α} {absent : α} {next : α → Reader β}
    {more : Bool} {y : β}
    (h : (if more then reader >>= next else pure absent >>= next) text = .ok (y, rest)) :
    ∃ x middle, (x = absent ∨ reader text = .ok (x, middle)) ∧ next x middle = .ok (y, rest) := by
  cases more with
  | false => exact ⟨absent, text, .inl rfl, h⟩
  | true =>
    obtain ⟨x, middle, hx, h⟩ := Reader.exists_of_bind_ok h
    exact ⟨x, middle, .inr hx, h⟩

theorem isFramed_of_readElements {c : Configuration} (h : readElements text = .ok (c, rest)) :
    c.IsFramed := by
  obtain ⟨more, _, -, h⟩ := Reader.exists_of_bind_ok h
  cases more with
  | false => cases h
  | true =>
    obtain ⟨r, _, hr, h⟩ := Reader.exists_of_bind_ok h
    obtain ⟨more, _, -, h⟩ := Reader.exists_of_bind_ok h
    obtain ⟨n, _, -, h⟩ := exists_of_optional h
    obtain ⟨more, _, -, h⟩ := Reader.exists_of_bind_ok h
    obtain ⟨edge, _, hedge, h⟩ := exists_of_optional h
    obtain ⟨_, _, -, h⟩ := Reader.exists_of_bind_ok h
    cases h
    refine ⟨Record.isWritable_of_read hr, ?_⟩
    rcases hedge with rfl | hedge
    · nofun
    · exact isPortable_of_readEdge hedge

theorem isFramed_of_read {c : Configuration} (h : read text = .ok (c, rest)) : c.IsFramed := by
  rw [read] at h
  split at h
  · exact isFramed_of_readMembers h
  · exact isFramed_of_readElements h
  · cases h

/-! ## Saving and loading -/

theorem save_eq_ok_iff {c : Configuration} {store saved : Store} {name : String} :
    c.save store name = .ok saved ↔ store.write name c.document.pretty.toUTF8 = .ok saved :=
  Outcome.mapError_eq_ok_iff

/-- What was saved last under a name is read from its text. -/
theorem load_of_save {c : Configuration} {store saved : Store} {name : String}
    (h : c.save store name = .ok saved) : load saved name = parse c.document.pretty := by
  rw [load, Store.readText_of_write (save_eq_ok_iff.1 h)]
  rfl

theorem IsFramed.isWritable {c : Configuration} (hc : c.IsFramed)
    (hfinite : ∀ o ∈ c.neighbourhood, o.IsFinite) : c.IsWritable :=
  ⟨hc.rule, hfinite, hc.edge⟩

theorem readMember_neighbourhood_of_refused {draft : Draft} (hfree : draft.neighbourhood = none)
    {fault : Fault} (h : Neighbourhood.read text = .error fault) :
    readMember "neighbourhood" draft (':' :: text) = .error fault := by
  have hkey : "neighbourhood" ≠ "rule" := by decide
  simp only [readMember, if_neg hkey, if_pos, hfree, Option.isSome_none, Bool.false_eq_true,
    if_false]
  rw [Reader.bind_of_ok (Json.readColon_append text), Reader.bind_of_error h]

/-- In every layout, a configuration with an offset out of range is refused where that offset
stands: the rule before it is read, and the policy behind it is not looked at. -/
theorem IsFramed.refuses {c : Configuration} (hc : c.IsFramed)
    (hinfinite : ¬ ∀ o ∈ c.neighbourhood, o.IsFinite) (h : Written c.document text) :
    Refuses read text Offset.noComponent := by
  rw [document] at h
  cases h with
  | object hmembers hinside =>
    obtain ⟨gap, rule, _, rfl, hgap, hrule, hmembers⟩ := hmembers.exists_of_cons
    obtain ⟨gap', offsets, _, rfl, hgap', hoffsets, -⟩ := hmembers.exists_of_cons
    have hreadRule := hc.rule.readAs hrule
    have hrefused := Neighbourhood.refuses_of_infinite hinfinite hoffsets
    have htaken : TakesIn readMember {} [Json.memberText "rule" gap rule]
        { rule := some c.rule.reread } :=
      .cons (fun rest hends => readMember_rule rfl (hreadRule.reads hgap hends)) (.nil _)
    refine .of_skips read_skipBlanks rfl (by decide) fun rest _ => ?_
    have hobject := Json.readObject_of_refused htaken (fun rest hends =>
      readMember_neighbourhood_of_refused rfl (hrefused.fails hgap' hends)) hinside rest
    change readMembers _ = _
    rw [List.append_assoc, readMembers, List.cons_append, List.nil_append,
      Reader.bind_of_error hobject]

theorem IsFramed.parse_eq_error {c : Configuration} (hc : c.IsFramed)
    (hinfinite : ¬ ∀ o ∈ c.neighbourhood, o.IsFinite) {text : String}
    (h : Written c.document text.toList) : parse text = .error (.json Offset.noComponent) := by
  rw [parse, (hc.refuses hinfinite h).readText]
  rfl

theorem isFramed_of_parse {text : String} {c : Configuration} (h : parse text = .ok c) :
    c.IsFramed := by
  obtain ⟨rest, hread, -⟩ := Json.readText_eq_ok_iff.1 (Outcome.mapError_eq_ok_iff.1 h)
  exact isFramed_of_read hread

/-- A configuration that was read is read again from the text it is saved as, with as many offsets,
exactly when its offsets are in range. Otherwise that text is refused. -/
theorem reloads_iff_finite {text : String} {c : Configuration} (h : parse text = .ok c) :
    (∀ store name saved, c.save store name = .ok saved →
      load saved name = parse c.document.pretty) ∧
    parse c.document.pretty = (if ∀ o ∈ c.neighbourhood, o.IsFinite then .ok c.reread
      else .error (.json Offset.noComponent)) ∧
    ((∃ d, parse c.document.pretty = .ok d ∧
      d.neighbourhood.length = c.neighbourhood.length) ↔ ∀ o ∈ c.neighbourhood, o.IsFinite) := by
  have hframed := isFramed_of_parse h
  have hwritten := c.document.written_pretty
  refine ⟨fun store name saved => load_of_save, ?_, ?_⟩
  · split_ifs with hfinite
    · exact (hframed.isWritable hfinite).parse_eq hwritten
    · exact hframed.parse_eq_error hfinite hwritten
  · constructor
    · rintro ⟨d, hd, -⟩
      by_contra hinfinite
      rw [hframed.parse_eq_error hinfinite hwritten] at hd
      cases hd
    · intro hfinite
      exact ⟨c.reread, (hframed.isWritable hfinite).parse_eq hwritten, List.length_map _⟩

/-- A list with a component that is just in range, beside one that vanishes. -/
def limitText : String :=
  "[\x7b\"ruleFormat\":\"vote\"\x7d,[[3.4028235677973365e38,-1e-46,0.5]],-1.5]"

theorem reloads_at_the_limit : ∃ c, parse limitText = .ok c ∧
    (∃ saved, c.save (Store.empty ["shaders"]) "shaders/specimen.json" = .ok saved ∧
      load saved "shaders/specimen.json" = .ok c.reread) ∧
    ∃ d, parse c.document.pretty = .ok d ∧ d.neighbourhood.length = c.neighbourhood.length := by
  obtain ⟨c, hparse, hc⟩ := Outcome.exists_of_any (x := parse limitText)
    (p := fun c => decide (∀ o ∈ c.neighbourhood, o.IsFinite)) (by decide +kernel)
  have hfinite := of_decide_eq_true hc
  obtain ⟨hload, hpretty, hiff⟩ := reloads_iff_finite hparse
  rw [if_pos hfinite] at hpretty
  obtain ⟨saved, hwrite⟩ := Store.accepts_iff_write.1 accepts_specimen
  have hsaved : c.save (Store.empty ["shaders"]) "shaders/specimen.json" = .ok saved :=
    save_eq_ok_iff.2 hwrite
  exact ⟨c, hparse, ⟨saved, hsaved, (hload _ _ saved hsaved).trans hpretty⟩, hiff.2 hfinite⟩

/-- A component beyond the range of 32 bits. -/
def overflowText : String :=
  "\x7b\"rule\":\x7b\"ruleFormat\":\"vote\"\x7d,\"neighbourhood\":[[1e39,0,0]]\x7d"

/-- A component out of range is read, but not from the text it is saved as. -/
theorem saved_infinity_refused : ∃ c, parse overflowText = .ok c ∧
    parse c.document.pretty = .error (.json Offset.noComponent) := by
  obtain ⟨c, hparse, hc⟩ := Outcome.exists_of_any (x := parse overflowText)
    (p := fun c => decide (¬ ∀ o ∈ c.neighbourhood, o.IsFinite)) (by decide +kernel)
  exact ⟨c, hparse, (isFramed_of_parse hparse).parse_eq_error (of_decide_eq_true hc)
    c.document.written_pretty⟩

end Configuration

end CellularShader
