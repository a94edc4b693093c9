/- # Rules written down and read back

The parameters of a rule are written as values, each of which stands for its parameter as long as
all chances are finite. Then the record of the rule describes the rule itself. A chance that is not
finite is written as `null`, and the record is refused.
-/

import CellularShader.Proofs.Json.Finite
import CellularShader.Proofs.Record.Acceptance

namespace CellularShader

open Json (IsChance Value)
open Outcome SortedMap

/-- Whether every chance in a map is finite. -/
def Chances.IsFinite (m : Chances) : Prop := ∀ e ∈ m.entries, e.2.isFinite = true

/-- Whether every chance in a rule is finite. -/
def Rule.IsFinite : Rule → Prop
  | extendedStochastic r => r.birth.IsFinite ∧ r.survival.IsFinite
  | _ => True

namespace Parameter

/-- A parameter as it is written. -/
def value : Parameter → Value
  | integer n => .ofInt32 n
  | counts ns => .ofInt32s ns
  | chances m => .ofIntMap .ofDouble m
  | flag b => .bool b

def IsFinite : Parameter → Prop
  | chances m => m.IsFinite
  | _ => True

/-- The members that chances are written as, in the order of the counts. -/
def chanceMembers (m : Chances) : List (String × Value) :=
  m.entries.map fun e => (e.1.toInt.repr, .ofDouble e.2)

theorem repr_injective {a b : Int32} (h : a.toInt.repr = b.toInt.repr) : a = b := by
  have ha : Json.int32OfKey a.toInt.repr = .ok a := Json.int32OfKey_eq_ok_iff.2 rfl
  exact Except.ok.inj (ha.symm.trans (Json.int32OfKey_eq_ok_iff.2 h))

theorem perm_chanceMembers (m : Chances) :
    (insertEntries [] (chanceMembers m)).Perm (chanceMembers m) := by
  have hdistinct : Distinct (chanceMembers m) :=
    List.pairwise_map.2 (m.distinct_entries.imp fun hne heq => hne (repr_injective heq))
  exact perm_insertEntries_nil hdistinct

/-- Finite chances are written so that they can be told from the members, in whatever order these
come. -/
theorem chances_writtenAs {m : Chances} (hm : m.IsFinite) :
    (chances m).WrittenAs (.ofIntMap .ofDouble m) := by
  have hlisted : List.Forall₂ IsChance (chanceMembers m) m.entries := by
    rw [chanceMembers, List.forall₂_map_left_iff, List.forall₂_same]
    intro e he
    exact ⟨rfl, .float e.2 (hm e he), Value.ofDouble_of_isFinite (hm e he), rfl⟩
  obtain ⟨entries, hchances, hperm⟩ :=
    List.perm_comp_forall₂ (perm_chanceMembers m) hlisted
  exact ⟨_, entries, rfl, hchances, (ofList_of_perm hperm).symm⟩

theorem WrittenAs.fits {p : Parameter} {v : Value} (h : p.WrittenAs v) : p.shape.Fits v := by
  cases p with
  | integer n => exact ⟨n, h⟩
  | counts ns => exact Shape.fits_counts_iff.2 ⟨ns, h⟩
  | chances m => exact Shape.fits_chances_iff.2 ⟨m, h⟩
  | flag b => exact ⟨b, h⟩

theorem value_writtenAs {p : Parameter} (hp : p.IsFinite) : p.WrittenAs p.value := by
  cases p with
  | chances m => exact chances_writtenAs hp
  | _ => rfl

theorem isFinite_of_fits_value {p : Parameter} (h : p.shape.Fits p.value) : p.IsFinite := by
  cases p with
  | chances m =>
    obtain ⟨members, hmembers, hall⟩ := h
    cases hmembers
    intro e he
    have hmem : (e.1.toInt.repr, Value.ofDouble e.2) ∈ insertEntries [] (chanceMembers m) :=
      (perm_chanceMembers m).mem_iff.2 (List.mem_map_of_mem he)
    obtain ⟨-, n, hn⟩ := hall _ hmem
    by_contra hinfinite
    simp [Value.ofDouble, Json.Number.ofDouble?, hinfinite] at hn
  | _ => trivial

/-- A value stands for no more than one parameter of a shape. -/
theorem WrittenAs.unique {p q : Parameter} {v : Value} (hshape : p.shape = q.shape)
    (hp : p.WrittenAs v) (hq : q.WrittenAs v) : p = q := by
  -- Each of the two is what the decoder of the shape makes of the value.
  cases p <;> cases q <;> try cases hshape
  case integer =>
    have heq := (Value.toInt32_eq_ok_iff.2 hp).symm.trans (Value.toInt32_eq_ok_iff.2 hq)
    exact congrArg _ (Except.ok.inj heq)
  case counts =>
    have heq := (Value.toInt32s_eq_ok_iff.2 hp).symm.trans (Value.toInt32s_eq_ok_iff.2 hq)
    exact congrArg _ (Except.ok.inj heq)
  case chances =>
    have heq := (Value.toIntMap_eq_ok_iff.2 hp).symm.trans (Value.toIntMap_eq_ok_iff.2 hq)
    exact congrArg _ (Except.ok.inj heq)
  case flag =>
    have heq := (Value.toBool_eq_ok_iff.2 hp).symm.trans (Value.toBool_eq_ok_iff.2 hq)
    exact congrArg _ (Except.ok.inj heq)

/-- Values stand for finite parameters. -/
theorem WrittenAs.isFinite {p : Parameter} {v : Value} (h : p.WrittenAs v) : p.IsFinite := by
  cases p with
  | chances m =>
    obtain ⟨members, entries, rfl, hchances, rfl⟩ := h
    have hentries : ∀ e ∈ entries, e.2.isFinite = true := by
      intro e he
      obtain ⟨_, -, -, n, -, hx⟩ := exists_mem_of_forall₂ hchances.flip he
      exact hx ▸ n.isFinite_toDouble
    intro e he
    rw [entries_ofList] at he
    exact forall_insertEntries (P := fun x : Double => x.isFinite = true) (by simp) hentries e he
  | _ => trivial

end Parameter

namespace Rule

theorem params_eq (r : Rule) :
    r.params = insertEntries [] (r.parameters.map fun p => (p.1, p.2.value)) := by
  cases r <;> rfl

theorem shapes_parameters (r : Rule) :
    r.parameters.map (fun p => (p.1, p.2.shape)) = r.family.shapes := by
  cases r <;> rfl

theorem distinct_parameters (r : Rule) : Distinct r.parameters := by
  have hshapes := r.family.distinct_shapes
  rw [← r.shapes_parameters, Distinct, List.pairwise_map] at hshapes
  exact hshapes

/-- A parameter has the only shape that is listed under its name. -/
theorem shape_eq_of_mem {r : Rule} {p : String × Parameter} (hp : p ∈ r.parameters) {shape : Shape}
    (hshape : (p.1, shape) ∈ r.family.shapes) : p.2.shape = shape := by
  have hmem : (p.1, p.2.shape) ∈ r.family.shapes := r.shapes_parameters ▸ List.mem_map_of_mem hp
  exact congrArg Prod.snd (r.family.distinct_shapes.eq_of_mem hmem hshape rfl)

theorem isFinite_iff (r : Rule) : r.IsFinite ↔ ∀ p ∈ r.parameters, p.2.IsFinite := by
  cases r <;> simp [IsFinite, parameters, LifeRule.parameters, StochasticRule.parameters,
    GenerationsRule.parameters, VoteRule.parameters, LukyRule.parameters, NlukyRule.parameters,
    CyclicRule.parameters, Parameter.IsFinite]

/-- A rule is determined by its family and its parameters. -/
theorem eq_of_parameters {r s : Rule} (hfamily : r.family = s.family)
    (h : ∀ p ∈ r.parameters, p ∈ s.parameters) : r = s := by
  cases r <;> cases s <;> try cases hfamily
  all_goals
    rename_i r s
    cases r
    cases s
    simp_all [parameters, LifeRule.parameters, StochasticRule.parameters,
      GenerationsRule.parameters, VoteRule.parameters, LukyRule.parameters, NlukyRule.parameters,
      CyclicRule.parameters]

end Rule

theorem Chances.equals_self {m : Chances} (hm : m.IsFinite) : m.equals m = true := by
  have hsame : List.Forall₂ (fun x y => x.2.equals y.2 = true) m.entries m.entries :=
    List.forall₂_same.2 fun e he => Binary.equals_self (hm e he)
  simp only [equals, decide_true, Bool.true_and, List.all_eq_true]
  exact fun _ he => List.forall₂_zip hsame he

theorem Rule.equals_self {r : Rule} (hr : r.IsFinite) : r.equals r = true := by
  cases r with
  | extendedStochastic r =>
    simp [equals, Chances.equals_self hr.1, Chances.equals_self hr.2]
  | _ => simp [equals]

namespace Record

/-- The members of a rule's record are its parameters as they are written. -/
theorem mem_entries_ofRule {r : Rule} {label : String} {m : String × Value} :
    m ∈ (ofRule r label).params.entries ↔ ∃ p ∈ r.parameters, (p.1, p.2.value) = m := by
  have hnames : Distinct (r.parameters.map fun p => (p.1, p.2.value)) :=
    List.pairwise_map.2 r.distinct_parameters
  have hperm := perm_insertEntries_nil hnames
  have hdistinct : Distinct (insertEntries [] (r.parameters.map fun p => (p.1, p.2.value))) :=
    (hperm.pairwise_iff fun hab => hab.symm).2 hnames
  rw [ofRule, r.params_eq, (perm_entries_ofList hdistinct).mem_iff, hperm.mem_iff, List.mem_map]

theorem misfit_ofRule_iff {r : Rule} {label : String} :
    Misfit r.family.shapes (ofRule r label).params.entries ↔ ¬r.IsFinite := by
  rw [r.isFinite_iff]
  constructor
  · rintro ⟨m, hm, shape, hshape, hmisfit⟩ hfinite
    obtain ⟨p, hp, rfl⟩ := mem_entries_ofRule.1 hm
    obtain rfl := Rule.shape_eq_of_mem hp hshape
    exact hmisfit (Parameter.value_writtenAs (hfinite p hp)).fits
  · intro hinfinite
    push Not at hinfinite
    obtain ⟨p, hp, hp'⟩ := hinfinite
    have hshape : (p.1, p.2.shape) ∈ r.family.shapes := r.shapes_parameters ▸ List.mem_map_of_mem hp
    exact ⟨_, mem_entries_ofRule.2 ⟨p, hp, rfl⟩, _, hshape,
      fun hfits => hp' (Parameter.isFinite_of_fits_value hfits)⟩

/-- What the members give under the name of a parameter is that parameter. -/
theorem eq_of_givenBy_ofRule {r : Rule} (hr : r.IsFinite) {label : String}
    {p q : String × Parameter} (hq : q ∈ r.parameters) (hname : q.1 = p.1)
    (hshape : q.2.shape = p.2.shape) (hp : GivenBy (ofRule r label).params.entries p) : q = p := by
  have hmem : (q.1, q.2.value) ∈ (ofRule r label).params.entries :=
    mem_entries_ofRule.2 ⟨q, hq, rfl⟩
  obtain ⟨v, hv, hwritten⟩ | ⟨hfree, -⟩ := hp
  · obtain rfl : q.2.value = v :=
      congrArg Prod.snd ((ofRule r label).params.distinct_entries.eq_of_mem hmem hv hname)
    have hvalue := Parameter.value_writtenAs (r.isFinite_iff.1 hr q hq)
    exact Prod.ext hname (hvalue.unique hshape hwritten)
  · exact absurd (hname ▸ hmem) (hfree q.2.value)

/-- A rule of finite chances is read back. -/
theorem toRule_ofRule {r : Rule} (hr : r.IsFinite) (label : String) :
    (ofRule r label).toRule = .ok r := by
  obtain ⟨herror, hok⟩ := Rule.readParams_object (ofRule r label).params.entries r.family
  rw [misfit_ofRule_iff] at herror
  cases hread : Rule.readParams (.object (ofRule r label).params.entries) r.family with
  | error fault => exact absurd hr (herror.1 ⟨fault, hread⟩)
  | ok s =>
    obtain ⟨hfamily, hgiven⟩ := hok s hread
    have hsame : ∀ p ∈ s.parameters, p ∈ r.parameters := by
      intro p hp
      have hshape : (p.1, p.2.shape) ∈ r.family.shapes := by
        rw [← hfamily, ← s.shapes_parameters]
        exact List.mem_map_of_mem hp
      rw [← r.shapes_parameters] at hshape
      obtain ⟨q, hq, hqp⟩ := List.mem_map.1 hshape
      obtain ⟨hname, hshape⟩ := Prod.mk.inj hqp
      exact eq_of_givenBy_ofRule hr hq hname hshape (hgiven p hp) ▸ hq
    rw [toRule_of_tag (d := ofRule r label) rfl, hread, Rule.eq_of_parameters hfamily hsame]
    rfl

/-- A rule with a chance that is not finite is refused for its parameters. -/
theorem toRule_ofRule_of_infinite {r : Rule} (hr : ¬r.IsFinite) (label : String) :
    ∃ fault, (ofRule r label).toRule = .error (.invalidParameters .extendedStochastic fault) := by
  obtain ⟨herror, -⟩ := Rule.readParams_object (ofRule r label).params.entries r.family
  obtain ⟨fault, hfault⟩ := herror.2 (misfit_ofRule_iff.2 hr)
  have hfamily : r.family = .extendedStochastic := by
    cases r with
    | extendedStochastic => rfl
    | _ => exact absurd trivial hr
  refine ⟨fault, ?_⟩
  rw [toRule_of_tag (d := ofRule r label) rfl, hfault, hfamily]
  rfl

/-! ## Records in general -/

/-- A record describes rules of finite chances only. -/
theorem isFinite_of_toRule {d : Record} {r : Rule} (h : d.toRule = .ok r) : r.IsFinite := by
  obtain ⟨f, -, hread⟩ := exists_of_toRule_eq_ok h
  obtain ⟨-, hgiven⟩ := (Rule.readParams_object d.params.entries f).2 r hread
  refine r.isFinite_iff.2 fun p hp => ?_
  obtain ⟨v, -, hwritten⟩ | ⟨-, hinitial⟩ := hgiven p hp
  · exact hwritten.isFinite
  · rw [hinitial]
    cases p.2.shape with
    | chances => exact nofun
    | _ => trivial

/-- A rule survives being written as a record exactly when its chances are finite; otherwise the
record is refused. The record of a rule that was read from another record generates the same text,
for such a rule has finite chances. -/
theorem survives_iff_finite :
    (∀ (r : Rule) (label : String),
      ((∃ s, (ofRule r label).toRule = .ok s ∧ s.equals r = true) ↔ r.IsFinite) ∧
      (r.IsFinite → (ofRule r label).toRule = .ok r) ∧
      (¬r.IsFinite → ∃ fault,
        (ofRule r label).toRule = .error (.invalidParameters .extendedStochastic fault))) ∧
    (∀ (d : Record) (r : Rule), d.toRule = .ok r → ∀ neighbourhood edge,
      (ofRule r d.label).generate neighbourhood edge = d.generate neighbourhood edge) ∧
    ∀ (d : Record) (r : Rule), d.toRule = .ok r → r.IsFinite := by
  refine ⟨fun r label => ⟨⟨?_, ?_⟩, fun hr => toRule_ofRule hr label,
    fun hr => toRule_ofRule_of_infinite hr label⟩, fun d r h neighbourhood edge => ?_,
    fun d r h => isFinite_of_toRule h⟩
  · rintro ⟨s, hs, -⟩
    by_contra hr
    obtain ⟨fault, hfault⟩ := toRule_ofRule_of_infinite hr label
    cases hs.symm.trans hfault
  · exact fun hr => ⟨r, toRule_ofRule hr label, Rule.equals_self hr⟩
  · have hsame : (ofRule r d.label).toRule = d.toRule :=
      (toRule_ofRule (isFinite_of_toRule h) d.label).trans h.symm
    rw [generate_eq, generate_eq, hsame]
    rfl

end Record

end CellularShader
