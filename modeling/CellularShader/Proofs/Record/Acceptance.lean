/- # Which records describe rules

A record describes a rule when its tag is that of a family and no parameter of the family has the
wrong shape. An unknown tag is reported whatever the parameters are. Generating a shader from a
record, alone or inside a configuration, fails only in these two ways.
-/

import CellularShader.Configuration
import CellularShader.Proofs.Rule.Parameters

namespace CellularShader

open Outcome

namespace Family

theorem ofTag_tag (f : Family) : ofTag f.tag = .ok f := by
  cases f <;> rfl

theorem ofTag_of_unknown {tag : String} (h : ∀ f : Family, f.tag ≠ tag) :
    ofTag tag = .error (.unsupportedFamily tag) := by
  have hnone : ofTag? tag = none := by simp [ofTag?, h]
  simp only [ofTag, hnone]

end Family

namespace Record

theorem toRule_of_tag {d : Record} {f : Family} (h : f.tag = d.family) :
    d.toRule = (Rule.readParams (.object d.params.entries) f).mapError (.invalidParameters f) := by
  rw [toRule, ← h, Family.ofTag_tag]
  rfl

theorem toRule_of_unknown {d : Record} (h : ∀ f : Family, f.tag ≠ d.family) :
    d.toRule = .error (.unsupportedFamily d.family) := by
  rw [toRule, Family.ofTag_of_unknown h]
  rfl

/-- A record that describes a rule has the tag of a family, and gives the parameters of the rule. -/
theorem exists_of_toRule_eq_ok {d : Record} {rule : Rule} (h : d.toRule = .ok rule) :
    ∃ f : Family, f.tag = d.family ∧ Rule.readParams (.object d.params.entries) f = .ok rule := by
  by_cases hknown : ∃ f : Family, f.tag = d.family
  · obtain ⟨f, hf⟩ := hknown
    refine ⟨f, hf, ?_⟩
    rw [toRule_of_tag hf] at h
    cases hread : Rule.readParams (.object d.params.entries) f with
    | error fault => simp [hread, Except.mapError] at h
    | ok s => simpa [hread, Except.mapError] using h
  · rw [toRule_of_unknown (not_exists.1 hknown)] at h
    cases h

/-! ## Shaders -/

/-- What surrounds the rule of a record in its shader. -/
theorem toShader_eq (d : Record) (neighbourhood : Neighbourhood) (edge : Option Edge) :
    d.toShader neighbourhood edge =
      (Shader.mk · d.label neighbourhood (edge.getD default)) <$> d.toRule := by
  rw [toShader, ← bind_pure_comp]
  rfl

theorem generate_eq (d : Record) (neighbourhood : Neighbourhood) (edge : Option Edge) :
    d.generate neighbourhood edge =
      (fun rule => (Shader.mk rule d.label neighbourhood (edge.getD default)).text) <$>
        d.toRule := by
  rw [generate, toShader_eq, bind_pure_comp, Functor.map_map]

end Record

namespace Configuration

/-- A configuration has the shader of its record, in its own surroundings. -/
theorem toShader_eq (c : Configuration) :
    c.toShader = c.rule.toShader c.neighbourhood c.edge := by
  rw [toShader, Record.toShader_eq, ← bind_pure_comp]
  rfl

theorem generate_eq (c : Configuration) :
    c.generate = c.rule.generate c.neighbourhood c.edge := by
  rw [generate, toShader_eq, Record.generate]

end Configuration

namespace Record

/-- A record is refused for an unknown tag or for a parameter of the wrong shape. Otherwise it
describes the rule with the parameters that its members give, and its shader is the shader of that
rule, inside a configuration as well. -/
theorem accepted_by_tag_and_shapes (d : Record) :
    ((∀ f : Family, f.tag ≠ d.family) → d.toRule = .error (.unsupportedFamily d.family)) ∧
    (∀ f : Family, f.tag = d.family →
      ((∃ fault, d.toRule = .error (.invalidParameters f fault)) ↔
        Misfit f.shapes d.params.entries) ∧
      (¬Misfit f.shapes d.params.entries → ∃ rule, d.toRule = .ok rule ∧ rule.family = f ∧
        ∀ p ∈ rule.parameters, GivenBy d.params.entries p)) ∧
    ∀ neighbourhood edge,
      d.generate neighbourhood edge =
        (fun rule => (Shader.mk rule d.label neighbourhood (edge.getD (.literal "0"))).text) <$>
          d.toRule ∧
      Configuration.generate ⟨d, neighbourhood, edge⟩ = d.generate neighbourhood edge := by
  refine ⟨fun h => ?_, fun f hf => ?_, fun neighbourhood edge =>
    ⟨generate_eq d neighbourhood edge, Configuration.generate_eq ⟨d, neighbourhood, edge⟩⟩⟩
  · exact toRule_of_unknown h
  · obtain ⟨herror, hok⟩ := Rule.readParams_object d.params.entries f
    rw [toRule_of_tag hf, ← herror]
    cases hread : Rule.readParams (.object d.params.entries) f with
    | error fault => simp [Except.mapError]
    | ok rule => exact ⟨⟨nofun, nofun⟩, fun _ => ⟨rule, rfl, hok rule hread⟩⟩

end Record

end CellularShader
