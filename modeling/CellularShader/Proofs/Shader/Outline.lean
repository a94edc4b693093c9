/- # The outline of a shader

The routines of a shader are the lookup, the source of draws if its rule is stochastic, the tally of
its rule, the transition and the entry point. Each of them is defined once, and a routine that calls
another stands behind it. What the shader quotes from the user cannot add a definition unless it
contains the opening of one.
-/

import CellularShader.Proofs.Shader.Openings

namespace CellularShader

open Glsl Text

namespace Shader

/-! ## Parts -/

/-- A section with the phrase that opens it, if it defines a routine. -/
structure Part where
  opening : Option String
  text : String

namespace Part

/-- Whether a part opens what it says and nothing else. -/
def IsOpened : Part → Prop
  | ⟨none, text⟩ => OpensNone text
  | ⟨some own, text⟩ => Opens own text

theorem IsOpened.not_infix_text {part : Part} (h : part.IsOpened) {m : String} (hm : m ∈ openings)
    (hne : part.opening ≠ some m) : ¬m.toList <:+: part.text.toList := by
  obtain ⟨_ | own, text⟩ := part
  · exact h m hm
  · exact Opens.others h m hm fun heq => hne (congrArg some heq.symm)

end Part

/-- The text of parts. -/
def join (parts : List Part) : List Char := (joinSections (parts.map Part.text)).toList

/-- The position at which a part starts behind others. -/
def start (before : List Part) : Nat := sectionStart (before.map Part.text)

theorem start_lt (before others : List Part) (part : Part) :
    start before < start (before ++ part :: others) := by
  rw [start, start, List.map_append, List.map_cons]
  exact sectionStart_lt _ _ _

section Parts

variable {before after : List Part} {own text : String}

theorem prefix_drop_join (before after : List Part) (part : Part) :
    part.text.toList <+: (join (before ++ part :: after)).drop (start before) := by
  rw [join, List.map_append, List.map_cons]
  exact prefix_drop_sectionStart _ _ _

theorem not_infix_texts {parts : List Part} (hparts : ∀ x ∈ parts, x.IsOpened)
    (hown : own ∈ openings) (h : ∀ x ∈ parts, x.opening ≠ some own) :
    ∀ t ∈ parts.map Part.text, ¬own.toList <:+: t.toList := by
  intro t ht
  obtain ⟨x, hx, rfl⟩ := List.mem_map.1 ht
  exact (hparts x hx).not_infix_text hown (h x hx)

/-- The phrase of a part stands where the part starts and nowhere else, if no other part has it. -/
theorem onlyAt_join (hparts : ∀ x ∈ before ++ ⟨some own, text⟩ :: after, x.IsOpened)
    (hown : own ∈ openings) (hothers : ∀ x ∈ before ++ after, x.opening ≠ some own) :
    OnlyAt own.toList (join (before ++ ⟨some own, text⟩ :: after)) (start before) := by
  rw [List.forall_mem_append, List.forall_mem_cons] at hparts
  rw [List.forall_mem_append] at hothers
  obtain ⟨hbefore, hopens, hafter⟩ := hparts
  rw [join, List.map_append, List.map_cons]
  exact (isPhrase_of_mem hown).onlyAt_joinSections
    (onlyAt_zero (Opens.start hopens) (Opens.notAgain hopens))
    (not_infix_texts hbefore hown hothers.1) (not_infix_texts hafter hown hothers.2)

end Parts

/-! ## The parts of a shader -/

section

variable (s : Shader)

/-- The parts that define no routine. -/
def commentParts : List Part :=
  [⟨none, header s.rule.family.tag s.label s.edge.text⟩, ⟨none, hostInterface⟩]

def lookupPart : Part := ⟨some "int getVoxel(", s.edge.lookupText⟩

/-- The source of draws, for a rule that draws. -/
def drawParts : List Part :=
  if s.rule.isStochastic then [⟨some "float rand(", Rule.randomSource⟩] else []

def tallyPart : Part := ⟨some "int getNeighbourhood", s.rule.tally.text s.neighbourhood⟩

def processPart : Part := ⟨some "int process(", s.rule.process.text {}⟩

def entryPart : Part := ⟨some "float map(", entryText⟩

/-- The parts of a shader. -/
def parts : List Part :=
  s.commentParts ++ s.lookupPart :: (s.drawParts ++ [s.tallyPart, s.processPart, entryPart])

theorem toList_text_eq_join : s.text.toList = join s.parts := by
  have hdraws : s.drawParts.map Part.text =
      if s.rule.isStochastic then [Rule.randomSource] else [] := by
    rw [drawParts]
    split <;> rfl
  rw [text, sections, Rule.sections, join, parts, List.map_append, List.map_cons, List.map_append,
    hdraws]
  simp only [commentParts, lookupPart, tallyPart, processPart, entryPart, List.map_cons,
    List.map_nil, List.append_assoc, List.cons_append, List.nil_append]

/-! The parts again, around each of those that define a routine. -/

theorem parts_eq_draw (hdraws : s.drawParts = [⟨some "float rand(", Rule.randomSource⟩]) :
    s.parts = (s.commentParts ++ [s.lookupPart]) ++ ⟨some "float rand(", Rule.randomSource⟩ ::
      [s.tallyPart, s.processPart, entryPart] := by
  simp [parts, hdraws]

theorem parts_eq_tally : s.parts = (s.commentParts ++ s.lookupPart :: s.drawParts) ++
    s.tallyPart :: [s.processPart, entryPart] := by
  simp [parts]

theorem parts_eq_process :
    s.parts = (s.commentParts ++ s.lookupPart :: (s.drawParts ++ [s.tallyPart])) ++
      s.processPart :: [entryPart] := by
  simp [parts]

theorem parts_eq_entry :
    s.parts = (s.commentParts ++ s.lookupPart :: (s.drawParts ++ [s.tallyPart, s.processPart])) ++
      entryPart :: [] := by
  simp [parts]

end

theorem isOpened_parts {s : Shader} (hlabel : OpensNone s.label) (hedge : OpensNone s.edge.text) :
    ∀ x ∈ s.parts, x.IsOpened := by
  have hdraws : ∀ x ∈ s.drawParts, x.IsOpened := by
    intro x hx
    rw [drawParts] at hx
    split at hx
    · rw [List.mem_singleton.1 hx]
      exact opens_randomSource
    · cases hx
  rw [parts, commentParts]
  simp only [List.forall_mem_append, List.forall_mem_cons, List.not_mem_nil, false_implies,
    implies_true, and_true]
  exact ⟨⟨opensNone_header s.rule.family hlabel hedge, opensNone_hostInterface⟩,
    opens_lookup hedge, hdraws, opens_tally s.rule.tally s.neighbourhood, opens_process s.rule,
    opens_entry⟩

/-! ## The whole text -/

/-- Where the routines of a shader stand in its text. -/
structure Outline (s : Shader) (lookup tally process entry : Nat) : Prop where
  lookup_lt_tally : lookup < tally
  tally_lt_process : tally < process
  process_lt_entry : process < entry
  lookup_once : OnlyAt "int getVoxel(".toList s.text.toList lookup
  tally_once : OnlyAt "int getNeighbourhood".toList s.text.toList tally
  process_once : OnlyAt "int process(".toList s.text.toList process
  entry_once : OnlyAt "float map(vec3 v)".toList s.text.toList entry
  /-- What is defined there is the tally of the rule. -/
  definition_once : OnlyAt ("int " ++ s.rule.tally.name ++ " (").toList s.text.toList tally
  definition_iff (t : Tally) :
    ("int " ++ t.name ++ " (").toList <:+: s.text.toList ↔ t = s.rule.tally
  process_text : (s.rule.process.text {}).toList <+: s.text.toList.drop process
  /-- The tally that the transition calls is the one of the rule. -/
  call_iff (t : Tally) :
    (t.name ++ "(").toList <:+: (s.rule.process.text {}).toList ↔ t = s.rule.tally
  draw_once : s.rule.isStochastic = true → ∃ draw, lookup < draw ∧ draw < tally ∧
    OnlyAt "float rand(vec3 co".toList s.text.toList draw
  draw_absent : s.rule.isStochastic = false →
    ¬"float rand(vec3 co".toList <:+: s.text.toList ∧
      ¬"rand(".toList <:+: (s.rule.process.text {}).toList
  host : hostInterface.toList <:+: s.text.toList

theorem prefix_drop_text {s : Shader} {before after : List Part} {own : Option String}
    {text : String} (hparts : s.parts = before ++ ⟨own, text⟩ :: after) :
    text.toList <+: s.text.toList.drop (start before) := by
  rw [toList_text_eq_join, hparts]
  exact prefix_drop_join before after ⟨own, text⟩

theorem prefix_definition (t : Tally) :
    "int getNeighbourhood".toList <+: ("int " ++ t.name ++ " (").toList := by
  cases t <;> decide +kernel

theorem prefix_tally_text (t : Tally) (nb : Neighbourhood) :
    ("int " ++ t.name ++ " (").toList <+: (t.text nb).toList := by
  have hopening : (t.routine nb).opening { afterName := true } = "int " ++ t.name ++ " (" := by
    cases t <;> rfl
  rw [Tally.text, Routine.text_eq, hopening]
  generalize "int " ++ t.name ++ " (" = opening
  rw [String.toList_append]
  exact List.prefix_append _ _

theorem prefix_randomSource : "float rand(vec3 co".toList <+: Rule.randomSource.toList := by
  have hline : "float rand(vec3 co".toList <+: "float rand(vec3 co, float seed) \x7b".toList := by
    decide +kernel
  rw [Rule.randomSource, String.intercalate_cons_cons, String.append_assoc, String.toList_append]
  exact hline.trans (List.prefix_append _ _)

/-- The definition of a tally does not start with that of the other. -/
theorem eq_of_prefix_definition {t u : Tally}
    (h : ("int " ++ t.name ++ " (").toList <+: ("int " ++ u.name ++ " (").toList) : t = u := by
  revert h
  cases t <;> cases u <;> decide +kernel

section Positions

variable {s : Shader} (hlabel : OpensNone s.label) (hedge : OpensNone s.edge.text)

include hlabel hedge

/-- A part of a shader whose phrase no other part has is the only place of the phrase. -/
theorem onlyAt_text {before after : List Part} {own text : String}
    (hparts : s.parts = before ++ ⟨some own, text⟩ :: after) (hown : own ∈ openings)
    (hothers : ∀ x ∈ before ++ after, x.opening ≠ some own) :
    OnlyAt own.toList s.text.toList (start before) := by
  have hopened := isOpened_parts hlabel hedge
  rw [hparts] at hopened
  rw [toList_text_eq_join, hparts]
  exact onlyAt_join hopened hown hothers

theorem onlyAt_lookup : OnlyAt "int getVoxel(".toList s.text.toList (start s.commentParts) := by
  refine onlyAt_text hlabel hedge rfl (by decide) ?_
  cases hdraws : s.rule.isStochastic <;>
    simp [commentParts, tallyPart, processPart, entryPart, drawParts, hdraws]

theorem onlyAt_tally : OnlyAt "int getNeighbourhood".toList s.text.toList
    (start (s.commentParts ++ s.lookupPart :: s.drawParts)) := by
  refine onlyAt_text hlabel hedge s.parts_eq_tally (by decide) ?_
  cases hdraws : s.rule.isStochastic <;>
    simp [commentParts, lookupPart, processPart, entryPart, drawParts, hdraws]

theorem onlyAt_process : OnlyAt "int process(".toList s.text.toList
    (start (s.commentParts ++ s.lookupPart :: (s.drawParts ++ [s.tallyPart]))) := by
  refine onlyAt_text hlabel hedge s.parts_eq_process (by decide) ?_
  cases hdraws : s.rule.isStochastic <;>
    simp [commentParts, lookupPart, tallyPart, entryPart, drawParts, hdraws]

theorem onlyAt_entry : OnlyAt "float map(".toList s.text.toList
    (start (s.commentParts ++ s.lookupPart :: (s.drawParts ++ [s.tallyPart, s.processPart]))) := by
  refine onlyAt_text hlabel hedge s.parts_eq_entry (by decide) ?_
  cases hdraws : s.rule.isStochastic <;>
    simp [commentParts, lookupPart, tallyPart, processPart, drawParts, hdraws]

theorem onlyAt_draw (hdraws : s.drawParts = [⟨some "float rand(", Rule.randomSource⟩]) :
    OnlyAt "float rand(".toList s.text.toList (start (s.commentParts ++ [s.lookupPart])) := by
  refine onlyAt_text hlabel hedge (s.parts_eq_draw hdraws) (by decide) ?_
  simp [commentParts, lookupPart, tallyPart, processPart, entryPart]

theorem onlyAt_definition : OnlyAt ("int " ++ s.rule.tally.name ++ " (").toList s.text.toList
    (start (s.commentParts ++ s.lookupPart :: s.drawParts)) :=
  (onlyAt_tally hlabel hedge).extend (prefix_definition s.rule.tally)
    ((prefix_tally_text s.rule.tally s.neighbourhood).trans (prefix_drop_text s.parts_eq_tally))

theorem infix_definition_iff (t : Tally) :
    ("int " ++ t.name ++ " (").toList <:+: s.text.toList ↔ t = s.rule.tally := by
  have hstands := (onlyAt_definition hlabel hedge _).2 rfl
  constructor
  · intro h
    obtain ⟨j, hj⟩ := infix_iff_exists_drop.1 h
    -- A definition of either tally stands where the tally of the rule is defined.
    rw [(onlyAt_tally hlabel hedge j).1 ((prefix_definition t).trans hj)] at hj
    rcases List.prefix_or_prefix_of_prefix hj hstands with hstarts | hstarts
    · exact eq_of_prefix_definition hstarts
    · exact (eq_of_prefix_definition hstarts).symm
  · rintro rfl
    exact infix_iff_exists_drop.2 ⟨_, hstands⟩

theorem not_infix_draw (hdraws : s.rule.isStochastic = false) :
    ¬"float rand(vec3 co".toList <:+: s.text.toList := by
  intro h
  have hstarts : "float rand(".toList <+: "float rand(vec3 co".toList := by decide +kernel
  rw [toList_text_eq_join] at h
  have hown : "float rand(" ∈ openings := by decide
  refine (isPhrase_of_mem hown).not_infix_joinSections
    (not_infix_texts (isOpened_parts hlabel hedge) hown ?_) (hstarts.isInfix.trans h)
  simp [parts, commentParts, lookupPart, drawParts, hdraws, tallyPart, processPart, entryPart]

end Positions

/-- Every routine of a shader is defined once and before its use, as long as what the shader quotes
opens no routine. -/
theorem routines_defined_once_before_use (s : Shader) (hlabel : OpensNone s.label)
    (hedge : OpensNone s.edge.text) :
    ∃ lookup tally process entry, s.Outline lookup tally process entry := by
  refine ⟨start s.commentParts, start (s.commentParts ++ s.lookupPart :: s.drawParts),
    start (s.commentParts ++ s.lookupPart :: (s.drawParts ++ [s.tallyPart])),
    start (s.commentParts ++ s.lookupPart :: (s.drawParts ++ [s.tallyPart, s.processPart])), ?_⟩
  constructor
  case lookup_once => exact onlyAt_lookup hlabel hedge
  case tally_once => exact onlyAt_tally hlabel hedge
  case process_once => exact onlyAt_process hlabel hedge
  case entry_once =>
    have hentry : "float map(vec3 v)".toList <+: entryText.toList := by decide +kernel
    exact (onlyAt_entry hlabel hedge).extend (by decide +kernel)
      (hentry.trans (prefix_drop_text s.parts_eq_entry))
  case lookup_lt_tally => exact start_lt s.commentParts s.drawParts s.lookupPart
  case tally_lt_process =>
    simpa using start_lt (s.commentParts ++ s.lookupPart :: s.drawParts) [] s.tallyPart
  case process_lt_entry =>
    simpa using start_lt (s.commentParts ++ s.lookupPart :: (s.drawParts ++ [s.tallyPart])) []
      s.processPart
  case definition_once => exact onlyAt_definition hlabel hedge
  case definition_iff => exact infix_definition_iff hlabel hedge
  case process_text => exact prefix_drop_text s.parts_eq_process
  case call_iff => exact s.rule.infix_process_tally_iff
  case draw_once =>
    intro hstochastic
    have hdraws : s.drawParts = [⟨some "float rand(", Rule.randomSource⟩] := by
      rw [drawParts, if_pos hstochastic]
    refine ⟨start (s.commentParts ++ [s.lookupPart]), start_lt _ _ _, ?_, ?_⟩
    · simpa [hdraws] using start_lt (s.commentParts ++ [s.lookupPart]) []
        ⟨some "float rand(", Rule.randomSource⟩
    · exact (onlyAt_draw hlabel hedge hdraws).extend (by decide +kernel)
        (prefix_randomSource.trans (prefix_drop_text (s.parts_eq_draw hdraws)))
  case draw_absent =>
    intro hdraws
    exact ⟨not_infix_draw hlabel hedge hdraws, Rule.not_infix_process_draw hdraws⟩
  case host =>
    have hmem : hostInterface ∈ s.sections := by simp [sections]
    exact infix_intercalate_of_mem hmem List.infix_rfl

/-- Births are a matter of chance and one offset is not finite. What is quoted falls one character
short of an opening. -/
theorem near_misses_open_nothing :
    OpensNone "int getVoxel" ∧ OpensNone "int process" ∧ ∃ lookup tally process entry,
      (Shader.mk
        (.extendedStochastic { birth := .ofList [(3, .ofBits .double 0x3fe0000000000000)] })
        "int getVoxel"
        [⟨.ofBits .single 0x7fc00000, .ofBits .single 0xff800000, .ofInt .single 1⟩]
        (.literal "int process")).Outline lookup tally process entry :=
  ⟨by decide +kernel, by decide +kernel,
    routines_defined_once_before_use _ (by decide +kernel) (by decide +kernel)⟩

end Shader

end CellularShader
