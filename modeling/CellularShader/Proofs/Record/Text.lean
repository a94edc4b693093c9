/- # Rules carried through text

The record of a rule with finite chances has a text that is always read. Counts come back as they
are. A chance comes back as what the reader makes of its digits, so the rule survives exactly when
that is the same number for each of its chances.
-/

import CellularShader.Proofs.Neighbourhood.Reading
import CellularShader.Proofs.Record
import CellularShader.Proofs.Record.RoundTrip

namespace CellularShader

open Json (FloatStyle Value Written)
open SortedMap

/-! ## Single numbers -/

namespace Binary

variable {F : Format}

theorem equals_iff_eq {x y : Binary F} (hx : x.isFinite = true)
    (hsign : x.negative = y.negative) : x.equals y = true ↔ x = y := by
  constructor
  · intro h
    refine eq_of_units hsign ?_
    simp only [equals, Bool.and_eq_true, beq_iff_eq, value, hsign] at h
    split_ifs at h
    · omega
    · omega
  · rintro rfl
    exact equals_self hx

end Binary

namespace Json

theorem Numeral.negative_scale {word : Nat} {e : Int} {y : Double}
    (h : scale (.ofInt .double word) e = .ok y) : y.negative = false := by
  have hword := negative_ofInt_natCast word
  have hpower (n : Nat) : (powerOfTen n).negative = false := negative_ofInt_natCast (10 ^ n)
  unfold scale at h
  simp only at h
  split_ifs at h
  · cases h
    exact hword
  · cases h
    simp [Binary.mul, Binary.ofRatio, hword, hpower]
  · cases h
    simp [Binary.div, Binary.ofRatio, hword, hpower]
  · cases h
    simp [Binary.div, Binary.ofRatio, hword, hpower]
  · cases h
    exact negative_ofInt_natCast 0

namespace FloatStyle

variable {x : Double}

theorem isFinite_reread (hx : x.isFinite = true) : (double.reread x).isFinite = true :=
  (isReadable_double hx).isFinite_reread

theorem negative_reread (hx : x.isFinite = true) : (double.reread x).negative = x.negative := by
  obtain ⟨y, hy⟩ := exists_scaled_double hx
  have hsign : y.negative = false := Numeral.negative_scale hy
  rw [reread_of_scaled hy]
  cases x.negative <;> simp [Binary.neg, hsign]

/-- What is read is numerically equal to what was written only if it is the same number. -/
theorem equals_reread_iff (hx : x.isFinite = true) :
    (double.reread x).equals x = true ↔ double.reread x = x :=
  Binary.equals_iff_eq (isFinite_reread hx) (negative_reread hx)

end FloatStyle

end Json

/-! ## Parameters -/

namespace Parameter

/-- The parameter that the text of a parameter is read as. -/
def reread : Parameter → Parameter
  | chances m => chances (m.map FloatStyle.double.reread)
  | p => p

theorem reread_ofDouble {x : Double} (hx : x.isFinite = true) :
    (Value.ofDouble x).reread = Value.ofDouble (FloatStyle.double.reread x) := by
  rw [Value.ofDouble_of_isFinite hx,
    Value.ofDouble_of_isFinite (FloatStyle.isFinite_reread hx)]
  rfl

theorem reread_value {p : Parameter} (hp : p.IsFinite) : p.value.reread = p.reread.value := by
  cases p with
  | integer n => rfl
  | counts ns =>
    rw [value, Value.ofInt32s, Value.reread, Value.rereadElements_eq_map, List.map_map]
    rfl
  | chances m =>
    have hmembers : (chanceMembers m).map (fun e => (e.1, e.2.reread)) =
        chanceMembers (m.map FloatStyle.double.reread) := by
      rw [chanceMembers, chanceMembers, entries_map, List.map_map, List.map_map]
      exact List.map_congr_left fun e he => congrArg (Prod.mk _) (reread_ofDouble (hp e he))
    change (Value.object (insertEntries [] (chanceMembers m))).reread =
      .object (insertEntries [] (chanceMembers (m.map FloatStyle.double.reread)))
    rw [Value.reread, Value.rereadMembers_eq_map, map_insertEntries, hmembers, List.map_nil]
  | flag b => rfl

theorem isWritable_value {p : Parameter} (hp : p.IsFinite) (limit : Nat) :
    p.value.IsWritable (limit + 1) := by
  cases p with
  | integer n => exact .number _
  | counts ns => exact .array (List.forall_mem_map.2 fun n _ => .number _)
  | chances m =>
    have hm : m.IsFinite := hp
    have hvalues : ∀ e ∈ chanceMembers m, e.2.IsWritable limit := by
      refine List.forall_mem_map.2 fun e he => ?_
      rw [Value.ofDouble_of_isFinite (hm e he)]
      exact .number _
    refine .object (forall_insertEntries (by simp) hvalues) ?_
    rw [← entries_ofList]
    exact (ofList _).ascending
  | flag b => exact .bool b

end Parameter

/-! ## Rules -/

namespace Rule

/-- The rule that the text of a rule is read as. -/
def reread : Rule → Rule
  | extendedStochastic r => extendedStochastic
      ⟨r.birth.map FloatStyle.double.reread, r.survival.map FloatStyle.double.reread⟩
  | r => r

/-- The chances that occur in a rule. -/
def chances : Rule → List Double
  | extendedStochastic r => r.birth.entries.map Prod.snd ++ r.survival.entries.map Prod.snd
  | _ => []

theorem IsFinite.chances {r : Rule} (hr : r.IsFinite) : ∀ x ∈ r.chances, x.isFinite = true := by
  cases r with
  | extendedStochastic r =>
    exact List.forall_mem_append.2 ⟨List.forall_mem_map.2 hr.1, List.forall_mem_map.2 hr.2⟩
  | _ => nofun

theorem family_reread (r : Rule) : r.reread.family = r.family := by
  cases r <;> rfl

theorem parameters_reread (r : Rule) :
    r.reread.parameters = r.parameters.map fun p => (p.1, p.2.reread) := by
  cases r <;> rfl

theorem IsFinite.reread {r : Rule} (hr : r.IsFinite) : r.reread.IsFinite := by
  cases r with
  | extendedStochastic r =>
    exact ⟨List.forall_mem_map.2 fun e he => FloatStyle.isFinite_reread (hr.1 e he),
      List.forall_mem_map.2 fun e he => FloatStyle.isFinite_reread (hr.2 e he)⟩
  | _ => trivial

end Rule

/-- Chances are equal to what replaces them when each of them is. -/
theorem Chances.equals_map_iff (f : Double → Double) (m : Chances) :
    Chances.equals (m.map f) m = true ↔ ∀ e ∈ m.entries, (f e.2).equals e.2 = true := by
  have hkeys : (m.map f).keys = m.keys := by
    rw [keys, keys, entries_map, List.map_map]
    rfl
  rw [equals, hkeys, entries_map, ← List.map_prod_right_eq_zip]
  simp only [decide_true, Bool.true_and, List.all_map, List.all_eq_true, Function.comp_apply]

theorem Chances.equals_reread_iff {m : Chances} (hm : m.IsFinite) :
    Chances.equals (m.map FloatStyle.double.reread) m = true ↔
      ∀ e ∈ m.entries, FloatStyle.double.reread e.2 = e.2 := by
  rw [equals_map_iff]
  exact forall₂_congr fun e he => FloatStyle.equals_reread_iff (hm e he)

theorem Rule.equals_reread_iff {r : Rule} (hr : r.IsFinite) :
    r.reread.equals r = true ↔ ∀ x ∈ r.chances, FloatStyle.double.reread x = x := by
  cases r with
  | extendedStochastic r =>
    rw [reread, equals, Bool.and_eq_true, Chances.equals_reread_iff hr.1,
      Chances.equals_reread_iff hr.2, chances, List.forall_mem_append, List.forall_mem_map,
      List.forall_mem_map]
  | _ => simp [reread, equals, chances]

/-! ## Records -/

namespace Record

theorem isWritable_ofRule {r : Rule} (hr : r.IsFinite) (label : String) (limit : Nat) :
    (ofRule r label).IsWritable (limit + 1) := by
  -- No family has a parameter under the key of the tag or of the notation.
  have hnames : ∀ f : Family, ∀ s ∈ f.shapes, s.1 ≠ "ruleFormat" ∧ s.1 ≠ "ruleString" := by
    intro f
    cases f <;> decide
  have hmember {m : String × Value} (hm : m ∈ (ofRule r label).params.entries) :
      m.1 ≠ "ruleFormat" ∧ m.1 ≠ "ruleString" ∧ m.2.IsWritable (limit + 1) := by
    obtain ⟨p, hp, rfl⟩ := mem_entries_ofRule.1 hm
    have hshape : (p.1, p.2.shape) ∈ r.family.shapes := r.shapes_parameters ▸ List.mem_map_of_mem hp
    obtain ⟨htag, hlabel⟩ := hnames _ _ hshape
    exact ⟨htag, hlabel, Parameter.isWritable_value (r.isFinite_iff.1 hr p hp) limit⟩
  exact ⟨fun m hm => (hmember hm).1, fun m hm => (hmember hm).2.1, fun m hm => (hmember hm).2.2⟩

theorem reread_ofRule {r : Rule} (hr : r.IsFinite) (label : String) :
    (ofRule r label).reread = ofRule r.reread label := by
  have hvalues : r.parameters.map (fun p => (p.1, p.2.value.reread)) =
      r.reread.parameters.map fun p => (p.1, p.2.value) := by
    rw [r.parameters_reread, List.map_map]
    exact List.map_congr_left fun p hp =>
      congrArg (Prod.mk p.1) (Parameter.reread_value (r.isFinite_iff.1 hr p hp))
  have hparams : r.params.map (fun e => (e.1, e.2.reread)) = r.reread.params := by
    rw [r.params_eq, r.reread.params_eq, map_insertEntries, List.map_map, List.map_nil, ← hvalues]
    rfl
  rw [reread, ofRule, ofRule, map_ofList, hparams, r.family_reread]

/-- In every layout, the record of a rule is read as the record of what its chances are read as. -/
theorem parse_ofRule {r : Rule} (hr : r.IsFinite) {label text : String}
    (h : Written (ofRule r label).document text.toList) :
    parse text = .ok (ofRule r.reread label) := by
  rw [← reread_ofRule hr]
  exact ((isWritable_ofRule hr label _).readAs h).readText

/-- The text of a rule's record, compact or indented, is always read and describes a rule. It is the
same rule exactly when each chance is what the reader makes of its digits, as it is for chances that
are written with few digits. -/
theorem text_restores_iff {r : Rule} (hr : r.IsFinite) (label : String) :
    parse (ofRule r label).document.compact = .ok (ofRule r.reread label) ∧
    parse (ofRule r label).document.pretty = .ok (ofRule r.reread label) ∧
    (ofRule r.reread label).toRule = .ok r.reread ∧
    (r.reread.equals r = true ↔ ∀ x ∈ r.chances, FloatStyle.double.reread x = x) ∧
    ∀ x ∈ r.chances, FloatStyle.IsShort x → FloatStyle.double.reread x = x := by
  refine ⟨parse_ofRule hr (Json.Document.written_compact _),
    parse_ofRule hr (Json.Document.written_pretty _), toRule_ofRule hr.reread label,
    Rule.equals_reread_iff hr, fun x hx hshort => ?_⟩
  exact hshort.reread_eq (hr.chances x hx)

/-- Chances of few digits: negative zero, a number above one, and one at the last place that is
exact. -/
def fewDigits : Rule :=
  .extendedStochastic
    ⟨⟨[(-1, .ofRatio .double true 0 1), (3, .ofRatio .double false 5 4)], by decide⟩,
      ⟨[(2, .ofRatio .double false 123456789012345 (10 ^ 22))], by decide⟩⟩

theorem few_digits_restored : fewDigits.IsFinite ∧
    parse (ofRule fewDigits "few").document.compact = .ok (ofRule fewDigits.reread "few") ∧
    (ofRule fewDigits.reread "few").toRule = .ok fewDigits.reread ∧
    fewDigits.reread.equals fewDigits = true := by
  have hfinite : fewDigits.IsFinite :=
    ⟨List.forall_mem_cons.2 ⟨by decide +kernel, List.forall_mem_cons.2 ⟨by decide +kernel, nofun⟩⟩,
      List.forall_mem_cons.2 ⟨by decide +kernel, nofun⟩⟩
  have hshort : ∀ x ∈ fewDigits.chances, FloatStyle.IsShort x := by decide +kernel
  obtain ⟨hparse, -, hrule, hiff, hrestored⟩ := text_restores_iff hfinite "few"
  exact ⟨hfinite, hparse, hrule, hiff.2 fun x hx => hrestored x hx (hshort x hx)⟩

/-- A birth with a chance of one eleventh. -/
def elevenths : Rule :=
  .extendedStochastic ⟨⟨[(3, .ofRatio .double false 1 11)], by decide⟩, .empty⟩

/-- One eleventh is written with sixteen digits, which do not fit into a significand. Rounded and
scaled they make up another number, so the rule that comes back from the text is another one. -/
theorem elevenths_drift : ∃ d s, parse (ofRule elevenths "").document.compact = .ok d ∧
    d.toRule = .ok s ∧ s.equals elevenths = false := by
  have hfinite : elevenths.IsFinite := ⟨List.forall_mem_cons.2 ⟨by decide +kernel, nofun⟩, nofun⟩
  refine ⟨_, _, parse_ofRule hfinite (Json.Document.written_compact _),
    toRule_ofRule hfinite.reread "", ?_⟩
  rw [Bool.eq_false_iff]
  intro hequal
  have hrestored := (Rule.equals_reread_iff hfinite).1 hequal _ List.mem_cons_self
  exact absurd hrestored (by decide +kernel)

end Record

end CellularShader
