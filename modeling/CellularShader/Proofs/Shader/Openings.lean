/- # What the sections of a shader open

A routine is opened by its type and name. The section of a routine starts with its opening and
contains no opening besides, and the other sections contain none at all, as long as what the shader
quotes from the user contains none.
-/

import CellularShader.Proofs.Shader.Vocabulary
import CellularShader.Shader

namespace CellularShader

open Glsl Text

namespace Shader

/-- The phrases that open the routines of a shader. -/
def openings : List String :=
  ["int getVoxel(", "int getNeighbourhood", "int process(", "float rand(", "float map("]

theorem isPhrase_of_mem {m : String} (hm : m ∈ openings) : IsPhrase m.toList := by
  have hall : ∀ m ∈ openings, IsPhrase m.toList := by decide +kernel
  exact hall m hm

/-- Whether a text opens no routine. -/
def OpensNone (text : String) : Prop := ∀ m ∈ openings, ¬m.toList <:+: text.toList

instance : DecidablePred OpensNone := fun _ => inferInstanceAs (Decidable (∀ _ ∈ openings, _))

/-- Every opening has a blank, between its type and its name. -/
theorem opensNone_of_not_mem {text : String} (h : ' ' ∉ text.toList) : OpensNone text := by
  have hblank : ∀ m ∈ openings, ' ' ∈ m.toList := by decide +kernel
  exact fun m hm hoccurs => h (hoccurs.subset (hblank m hm))

/-- Whether a text starts with the opening of a routine and opens no other, nor that one again. -/
structure Opens (own text : String) : Prop where
  start : own.toList <+: text.toList
  notAgain : ¬own.toList <:+: text.toList.tail
  others : ∀ m ∈ openings, m ≠ own → ¬m.toList <:+: text.toList

instance (own text : String) : Decidable (Opens own text) :=
  decidable_of_iff (own.toList <+: text.toList ∧ ¬own.toList <:+: text.toList.tail ∧
      ∀ m ∈ openings, m ≠ own → ¬m.toList <:+: text.toList) <| by
    constructor
    · rintro ⟨hstart, hagain, hothers⟩
      exact ⟨hstart, hagain, hothers⟩
    · rintro ⟨hstart, hagain, hothers⟩
      exact ⟨hstart, hagain, hothers⟩

theorem opens_self {m : String} (hm : m ∈ openings) : Opens m m := by
  have hall : ∀ m ∈ openings, Opens m m := by decide +kernel
  exact hall m hm

/-! ## Routines -/

theorem opensNone_of_covers {vocabulary words : List String} (h : Covers vocabulary words)
    (hnone : ∀ w ∈ vocabulary, OpensNone w) : ∀ w ∈ words, OpensNone w := by
  intro w hw m hm hoccurs
  rcases h w hw with hmem | hsolid
  · exact hnone w hmem m hm hoccurs
  · exact (isPhrase_of_mem hm).not_infix_of_isSolid hsolid hoccurs

/-- A routine opens itself, and nothing else unless one of its words does. -/
theorem opens_text {own : String} (hown : own ∈ openings) {layout : Layout} {r : Routine}
    (hopening : Opens own (r.opening layout)) (hwords : ∀ w ∈ r.words layout, OpensNone w) :
    Opens own (r.text layout) where
  start := by
    rw [r.text_eq layout, String.toList_append]
    exact hopening.start.trans (List.prefix_append _ _)
  notAgain h := by
    obtain ⟨c, x, hparen, htext⟩ := r.exists_toList_text layout
    rw [htext, List.tail_cons] at h
    rcases infix_of_append_cons (isPhrase_of_mem hown).paren h with h | h
    · exact hopening.notAgain (by rwa [hparen])
    · obtain ⟨w, hw, h⟩ := Routine.occurs_of_behindOpening (isPhrase_of_mem hown) h
      exact hwords w hw own hown h
  others m hm hother h := by
    obtain ⟨w, hw, h⟩ := (Routine.infix_text_iff (isPhrase_of_mem hm)).1 h
    rcases List.mem_cons.1 hw with rfl | hw
    · exact hopening.others m hm hother h
    · exact hwords w hw m hm h

theorem opens_lookup {edge : Edge} (h : OpensNone edge.text) :
    Opens "int getVoxel(" edge.lookupText := by
  have hopening : Opens "int getVoxel(" (edge.lookup.opening edge.layout) := by
    cases edge <;> exact opens_self (by decide)
  have hfixed : ∀ w ∈ Edge.lookupWords, OpensNone w := by decide +kernel
  exact opens_text (by decide) hopening
    (opensNone_of_covers edge.covers_lookup (List.forall_mem_cons.2 ⟨h, hfixed⟩))

theorem opens_tally (t : Tally) (nb : Neighbourhood) :
    Opens "int getNeighbourhood" (t.text nb) := by
  have hopening : Opens "int getNeighbourhood"
      ((t.routine nb).opening { afterName := true }) := by
    cases t
    · change Opens _ "int getNeighbourhood ("
      decide +kernel
    · change Opens _ "int getNeighbourhoodCond ("
      decide +kernel
  exact opens_text (by decide) hopening
    (opensNone_of_covers (t.covers_routine nb _) (by decide +kernel))

theorem opens_process (r : Rule) : Opens "int process(" (r.process.text {}) := by
  have hopening : Opens "int process(" (r.process.opening {}) := opens_self (by decide)
  have hcalls : ∀ w ∈ r.helperCalls, OpensNone w := by
    have hblank : ∀ w ∈ r.helperCalls, ' ' ∉ w.toList := by
      rw [Rule.helperCalls]
      cases r.tally <;> cases r.isStochastic <;> decide +kernel
    exact fun w hw => opensNone_of_not_mem (hblank w hw)
  have hfixed : ∀ w ∈ transitionWords, OpensNone w := by decide +kernel
  exact opens_text (by decide) hopening
    (opensNone_of_covers r.covers_process (List.forall_mem_append.2 ⟨hcalls, hfixed⟩))

theorem opens_entry : Opens "float map(" entryText :=
  opens_text (by decide) (opens_self (by decide)) (by decide +kernel)

/-! ## Sections given by their lines -/

theorem opensNone_lines {lines : List String} (h : ∀ line ∈ lines, OpensNone line) :
    OpensNone ("\n".intercalate lines) := by
  intro m hm hoccurs
  obtain ⟨line, hline, hoccurs⟩ := (isPhrase_of_mem hm).exists_of_intercalate hoccurs
  exact h line hline m hm hoccurs

theorem opens_lines {own first : String} {lines : List String} (hown : own ∈ openings)
    (hfirst : Opens own first) (hlines : ∀ line ∈ lines, OpensNone line) (hne : lines ≠ []) :
    Opens own ("\n".intercalate (first :: lines)) := by
  have hp := isPhrase_of_mem hown
  have htext : "\n".intercalate (first :: lines) = first ++ "\n" ++ "\n".intercalate lines :=
    String.intercalate_cons_of_ne_nil hne
  rw [htext]
  refine ⟨?_, fun h => ?_, fun m hm hother h => ?_⟩
  · rw [String.toList_append, String.toList_append, List.append_assoc]
    exact hfirst.start.trans (List.prefix_append _ _)
  · have hfirstNe : first.toList ≠ [] := by
      intro hnil
      exact hp.ne_nil (List.prefix_nil.1 (hnil ▸ hfirst.start))
    rw [String.toList_append, String.toList_append, List.append_assoc,
      List.tail_append_of_ne_nil hfirstNe] at h
    rcases hp.separates (by decide) _ _ h with h | h
    · exact hfirst.notAgain h
    · exact opensNone_lines hlines own hown h
  · rcases (isPhrase_of_mem hm).split h with h | h
    · exact hfirst.others m hm hother h
    · exact opensNone_lines hlines m hm h

theorem opensNone_hostInterface : OpensNone hostInterface := by
  apply opensNone_lines
  simp only [OpensNone, openings, List.forall_mem_cons, List.not_mem_nil, false_implies,
    implies_true, and_true]
  and_intros <;> exact not_infix_ofList (by decide +kernel)

set_option maxRecDepth 2000 in
theorem opens_randomSource : Opens "float rand(" Rule.randomSource := by
  refine opens_lines (by decide) (by decide +kernel) ?_ (by simp)
  simp only [OpensNone, openings, List.forall_mem_cons, List.not_mem_nil, false_implies,
    implies_true, and_true, String.reduceAppend]
  and_intros <;> exact not_infix_ofList (by decide +kernel)

/-- Quoted text opens nothing behind words that no opening can start in. -/
theorem opensNone_append {lead quoted : String}
    (hlead : ∀ m ∈ openings, Clear m.toList lead.toList) (h : OpensNone quoted) :
    OpensNone (lead ++ quoted) := by
  intro m hm hoccurs
  rw [String.toList_append] at hoccurs
  exact h m hm ((hlead m hm).infix_right hoccurs)

theorem opensNone_header (family : Family) {label edge : String} (hlabel : OpensNone label)
    (hedge : OpensNone edge) : OpensNone (header family.tag label edge) := by
  have hfamily : OpensNone family.tag :=
    opensNone_of_not_mem (by cases family <;> decide +kernel)
  have htitle : OpensNone (" * " ++ target ++ " generated by " ++ generator) := by
    simp only [OpensNone, openings, target, generator, List.forall_mem_cons, List.not_mem_nil,
      false_implies, implies_true, and_true, String.reduceAppend]
    and_intros <;> exact not_infix_ofList (by decide +kernel)
  apply opensNone_lines
  simp only [List.forall_mem_cons, List.not_mem_nil, false_implies, implies_true, and_true]
  refine ⟨?_, htitle, ?_, opensNone_append ?_ hfamily, opensNone_append ?_ hlabel,
    opensNone_append ?_ hedge, ?_⟩
  all_goals decide +kernel

end Shader

end CellularShader
