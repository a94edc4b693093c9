/- # Rules from their parameters

Every family has a table of parameters, each with a name and a shape. A record of a family is read
from the members of an object: a member under the name of a parameter sets it and must have its
shape, and members under other names are passed over. So the record has what the members say, and
for the rest what it starts with; and it is refused exactly when a member has the wrong shape.
-/

import CellularShader.Proofs.Json.Decode
import CellularShader.Proofs.SortedMap
import CellularShader.Rule.Params

namespace CellularShader

open Json (IsChance Slot Fault Value Wanted)
open Outcome SortedMap

/-- The kinds of parameters. -/
inductive Shape where
  | integer
  | counts
  | chances
  | flag
deriving DecidableEq

/-- A parameter of a rule. -/
inductive Parameter where
  | integer (n : Int32)
  | counts (counts : List Int32)
  | chances (chances : Chances)
  | flag (b : Bool)

namespace Shape

/-- The values that can stand for a parameter. Counts and other integers are never taken from
floats, and the key of a chance is its count in decimal digits. -/
def Fits : Shape → Value → Prop
  | integer, v => ∃ n : Int32, v = .ofInt32 n
  | counts, v => ∃ elements, v = .array elements ∧
      ∀ e ∈ elements, ∃ n : Int32, e = .ofInt32 n
  | chances, v => ∃ members, v = .object members ∧
      ∀ m ∈ members, (∃ n : Int32, m.1 = n.toInt.repr) ∧ ∃ n, m.2 = .number n
  | flag, v => ∃ b, v = .bool b

/-- A parameter about which nothing is said. -/
def initial : Shape → Parameter
  | integer => .integer 0
  | counts => .counts []
  | chances => .chances .empty
  | flag => .flag false

end Shape

namespace Parameter

def shape : Parameter → Shape
  | integer _ => .integer
  | counts _ => .counts
  | chances _ => .chances
  | flag _ => .flag

/-- Whether a value stands for a parameter. Among chances for one count the last one holds. -/
def WrittenAs : Parameter → Value → Prop
  | integer n, v => v = .ofInt32 n
  | counts ns, v => v = .ofInt32s ns
  | chances m, v => ∃ members entries,
      v = .object members ∧ List.Forall₂ IsChance members entries ∧ m = .ofList entries
  | flag b, v => v = .bool b

end Parameter

/-- Whether a member has the name of a parameter without having its shape. -/
def Misfit (shapes : List (String × Shape)) (members : List (String × Value)) : Prop :=
  ∃ m ∈ members, ∃ shape, (m.1, shape) ∈ shapes ∧ ¬shape.Fits m.2

/-- Whether a named parameter is what the members say, or what it is when they say nothing about
it. -/
def GivenBy (members : List (String × Value)) (p : String × Parameter) : Prop :=
  (∃ v, (p.1, v) ∈ members ∧ p.2.WrittenAs v) ∨
    ((∀ v, (p.1, v) ∉ members) ∧ p.2 = p.2.shape.initial)

/-! ## Families -/

namespace Family

/-- The parameters of a family. -/
def shapes : Family → List (String × Shape)
  | life | extendedLife => [("birth", .counts), ("survival", .counts)]
  | extendedStochastic => [("birth", .chances), ("survival", .chances)]
  | generations | extendedGenerations =>
    [("birth", .counts), ("survival", .counts), ("stateCount", .integer)]
  | vote => [("vote", .counts)]
  | luky =>
    [("lowSurvival", .integer), ("highSurvival", .integer), ("lowBirth", .integer),
      ("highBirth", .integer)]
  | nluky =>
    [("stateCount", .integer), ("lowSurvival", .integer), ("highSurvival", .integer),
      ("lowBirth", .integer), ("highBirth", .integer)]
  | cyclic => [("stateCount", .integer), ("threshold", .integer), ("greenbergHastingsModel", .flag)]

end Family

namespace LifeRule

def parameters (r : LifeRule) : List (String × Parameter) :=
  [("birth", .counts r.birth), ("survival", .counts r.survival)]

end LifeRule

namespace StochasticRule

def parameters (r : StochasticRule) : List (String × Parameter) :=
  [("birth", .chances r.birth), ("survival", .chances r.survival)]

end StochasticRule

namespace GenerationsRule

def parameters (r : GenerationsRule) : List (String × Parameter) :=
  [("birth", .counts r.birth), ("survival", .counts r.survival),
    ("stateCount", .integer r.stateCount)]

end GenerationsRule

namespace VoteRule

def parameters (r : VoteRule) : List (String × Parameter) := [("vote", .counts r.vote)]

end VoteRule

namespace LukyRule

def parameters (r : LukyRule) : List (String × Parameter) :=
  [("lowSurvival", .integer r.lowSurvival), ("highSurvival", .integer r.highSurvival),
    ("lowBirth", .integer r.lowBirth), ("highBirth", .integer r.highBirth)]

end LukyRule

namespace NlukyRule

def parameters (r : NlukyRule) : List (String × Parameter) :=
  [("stateCount", .integer r.stateCount), ("lowSurvival", .integer r.lowSurvival),
    ("highSurvival", .integer r.highSurvival), ("lowBirth", .integer r.lowBirth),
    ("highBirth", .integer r.highBirth)]

end NlukyRule

namespace CyclicRule

def parameters (r : CyclicRule) : List (String × Parameter) :=
  [("stateCount", .integer r.stateCount), ("threshold", .integer r.threshold),
    ("greenbergHastingsModel", .flag r.greenbergHastings)]

end CyclicRule

namespace Rule

/-- The parameters of a rule by their names. -/
def parameters : Rule → List (String × Parameter)
  | life r | extendedLife r => r.parameters
  | extendedStochastic r => r.parameters
  | generations r | extendedGenerations r => r.parameters
  | vote r => r.parameters
  | luky r => r.parameters
  | nluky r => r.parameters
  | cyclic r => r.parameters

end Rule

/-! ## Fields -/

theorem exists_mem_of_forall₂ {α β : Type} {R : α → β → Prop} {l : List α} {bs : List β}
    (h : List.Forall₂ R l bs) {a : α} (ha : a ∈ l) : ∃ b ∈ bs, R a b := by
  induction h with
  | nil => cases ha
  | cons hb _ ih =>
    cases ha with
    | head => exact ⟨_, List.mem_cons_self, hb⟩
    | tail _ ha =>
      obtain ⟨b, hmem, hb⟩ := ih ha
      exact ⟨b, List.mem_cons_of_mem _ hmem, hb⟩

theorem exists_forall₂ {α β : Type} {R : α → β → Prop} {l : List α} (h : ∀ a ∈ l, ∃ b, R a b) :
    ∃ bs, List.Forall₂ R l bs := by
  induction l with
  | nil => exact ⟨[], .nil⟩
  | cons a l ih =>
    obtain ⟨⟨b, hb⟩, hrest⟩ := List.forall_mem_cons.1 h
    obtain ⟨bs, hbs⟩ := ih hrest
    exact ⟨b :: bs, .cons hb hbs⟩

namespace Shape

theorem fits_counts_iff {v : Value} :
    counts.Fits v ↔ ∃ ns, (Parameter.counts ns).WrittenAs v := by
  constructor
  · rintro ⟨elements, rfl, hall⟩
    obtain ⟨ns, hns⟩ := exists_forall₂ hall
    have heq : elements = ns.map .ofInt32 := by
      rwa [← List.forall₂_eq_eq_eq, List.forall₂_map_right_iff]
    exact ⟨ns, congrArg Value.array heq⟩
  · rintro ⟨ns, rfl⟩
    refine ⟨_, rfl, fun e he => ?_⟩
    obtain ⟨n, -, rfl⟩ := List.mem_map.1 he
    exact ⟨n, rfl⟩

theorem fits_chances_iff {v : Value} :
    chances.Fits v ↔ ∃ m, (Parameter.chances m).WrittenAs v := by
  constructor
  · rintro ⟨members, rfl, hall⟩
    have hchances : ∀ m ∈ members, ∃ entry, IsChance m entry := by
      intro m hm
      obtain ⟨⟨count, hkey⟩, n, hn⟩ := hall m hm
      exact ⟨(count, n.toDouble), hkey, n, hn, rfl⟩
    obtain ⟨entries, hentries⟩ := exists_forall₂ hchances
    exact ⟨_, members, entries, rfl, hentries, rfl⟩
  · rintro ⟨m, members, entries, rfl, hentries, -⟩
    refine ⟨members, rfl, fun m hm => ?_⟩
    obtain ⟨entry, -, hkey, n, hn, -⟩ := exists_mem_of_forall₂ hentries hm
    exact ⟨⟨entry.1, hkey⟩, n, hn⟩

end Shape

namespace Json.Slot

variable {ρ α : Type} {parameters : ρ → List (String × Parameter)} {name : String}

/-- A field takes the values of a shape and no others. It becomes the parameter that the value
stands for, and other parameters stay as they are. -/
structure Sets (parameters : ρ → List (String × Parameter)) (field : Slot ρ) (s : String × Shape) :
    Prop where
  name_eq : field.name = s.1
  exists_ok : ∀ r v, (∃ r', field.set r v = .ok r') ↔ s.2.Fits v
  of_ok : ∀ {r v r'}, field.set r v = .ok r' →
    ∀ p ∈ parameters r', if p.1 = s.1 then p.2.WrittenAs v else p ∈ parameters r

theorem sets_of_decoder {field : Slot ρ} {decode : Value → Except Fault α} {wrap : α → Parameter}
    {put : ρ → α → ρ} {shape : Shape} (hset : ∀ r v, field.set r v = do return put r (← decode v))
    (hdecode : ∀ {v x}, decode v = .ok x ↔ (wrap x).WrittenAs v)
    (hshape : ∀ {v}, shape.Fits v ↔ ∃ x, (wrap x).WrittenAs v)
    (hput : ∀ r x, ∀ p ∈ parameters (put r x),
      if p.1 = field.name then p.2 = wrap x else p ∈ parameters r) :
    field.Sets parameters (field.name, shape) := by
  have hok {r : ρ} {v : Value} {r' : ρ} :
      field.set r v = .ok r' ↔ ∃ x, (wrap x).WrittenAs v ∧ put r x = r' := by
    simp only [hset, bind_pure_comp, map_eq_ok_iff, hdecode]
  refine ⟨rfl, fun r v => ?_, fun {r v r'} h p hp => ?_⟩
  · simp only [hok, hshape]
    exact ⟨fun ⟨_, x, hx, _⟩ => ⟨x, hx⟩, fun ⟨x, hx⟩ => ⟨put r x, x, hx, rfl⟩⟩
  · obtain ⟨x, hx, rfl⟩ := hok.1 h
    have hp := hput r x p hp
    split_ifs at hp ⊢
    · exact hp ▸ hx
    · exact hp

theorem sets_int32 {get : ρ → Int32} {put : ρ → Int32 → ρ}
    (hput : ∀ r n, ∀ p ∈ parameters (put r n),
      if p.1 = name then p.2 = .integer n else p ∈ parameters r) :
    (int32 name get put).Sets parameters (name, .integer) :=
  sets_of_decoder (fun _ _ => rfl) Value.toInt32_eq_ok_iff .rfl hput

theorem sets_bool {get : ρ → Bool} {put : ρ → Bool → ρ}
    (hput : ∀ r b, ∀ p ∈ parameters (put r b),
      if p.1 = name then p.2 = .flag b else p ∈ parameters r) :
    (bool name get put).Sets parameters (name, .flag) :=
  sets_of_decoder (fun _ _ => rfl) Value.toBool_eq_ok_iff .rfl hput

theorem sets_int32s {get : ρ → List Int32} {put : ρ → List Int32 → ρ}
    (hput : ∀ r ns, ∀ p ∈ parameters (put r ns),
      if p.1 = name then p.2 = .counts ns else p ∈ parameters r) :
    (int32s name get put).Sets parameters (name, .counts) :=
  sets_of_decoder (fun _ _ => rfl) Value.toInt32s_eq_ok_iff Shape.fits_counts_iff hput

theorem sets_doubles {get : ρ → Chances} {put : ρ → Chances → ρ}
    (hput : ∀ r m, ∀ p ∈ parameters (put r m),
      if p.1 = name then p.2 = .chances m else p ∈ parameters r) :
    (doubles name get put).Sets parameters (name, .chances) :=
  sets_of_decoder (fun _ _ => rfl) Value.toIntMap_eq_ok_iff Shape.fits_chances_iff hput

end Json.Slot

/-! ## Records from members -/

/-- The fields of a record type, with the parameters that its records have. -/
structure Describes {ρ : Type} (fields : List (Slot ρ)) (defaults : ρ)
    (shapes : List (String × Shape)) (parameters : ρ → List (String × Parameter)) : Prop where
  sets : List.Forall₂ (Slot.Sets parameters) fields shapes
  distinct : Distinct shapes
  shaped : ∀ r, (parameters r).map (fun p => (p.1, p.2.shape)) = shapes
  initial : ∀ p ∈ parameters defaults, p.2 = p.2.shape.initial

namespace Describes

variable {ρ : Type} {fields : List (Slot ρ)} {defaults : ρ} {shapes : List (String × Shape)}
  {parameters : ρ → List (String × Parameter)} {m : String × Value}
  {members : List (String × Value)} {r r' : ρ}

/-- A member is taken in by the field that it names, if there is one. -/
theorem setMember_cases (h : Describes fields defaults shapes parameters) (r : ρ)
    (m : String × Value) :
    (∃ (field : Slot ρ) (shape : Shape), field.Sets parameters (m.1, shape) ∧
      (m.1, shape) ∈ shapes ∧ Slot.setMember fields r m = field.set r m.2) ∨
    ((∀ shape, (m.1, shape) ∉ shapes) ∧ Slot.setMember fields r m = .ok r) := by
  unfold Slot.setMember
  cases hfind : fields.find? (·.name = m.1) with
  | none =>
    refine .inr ⟨fun shape hmem => ?_, rfl⟩
    obtain ⟨field, hfield, hsets⟩ := exists_mem_of_forall₂ h.sets.flip hmem
    exact List.find?_eq_none.1 hfind field hfield (decide_eq_true hsets.name_eq)
  | some field =>
    obtain ⟨⟨name, shape⟩, hmem, hsets⟩ :=
      exists_mem_of_forall₂ h.sets (List.mem_of_find?_eq_some hfind)
    have hname : field.name = m.1 := by simpa using List.find?_some hfind
    obtain rfl : m.1 = name := hname.symm.trans hsets.name_eq
    exact .inl ⟨field, shape, hsets, hmem, rfl⟩

/-- A member can be taken in unless it has the wrong shape. -/
theorem exists_setMember_eq_ok_iff (h : Describes fields defaults shapes parameters) (r : ρ) :
    (∃ r', Slot.setMember fields r m = .ok r') ↔ ∀ s, (m.1, s) ∈ shapes → s.Fits m.2 := by
  obtain ⟨field, shape, hsets, hmem, hset⟩ | ⟨hfree, hset⟩ := h.setMember_cases r m
  · rw [hset, hsets.exists_ok]
    constructor
    · intro hfits s hs
      cases h.distinct.eq_of_mem hmem hs rfl
      exact hfits
    · exact fun hall => hall shape hmem
  · rw [hset]
    exact ⟨fun _ s hs => absurd hs (hfree s), fun _ => ⟨r, rfl⟩⟩

/-- A member sets the parameter that it names and leaves the others as they are. -/
theorem of_setMember (h : Describes fields defaults shapes parameters)
    (hok : Slot.setMember fields r m = .ok r') {p : String × Parameter} (hp : p ∈ parameters r') :
    if p.1 = m.1 then p.2.WrittenAs m.2 else p ∈ parameters r := by
  obtain ⟨field, shape, hsets, -, hset⟩ | ⟨hfree, hset⟩ := h.setMember_cases r m
  · exact hsets.of_ok (hset ▸ hok) p hp
  · obtain rfl : r = r' := Except.ok.inj (hset.symm.trans hok)
    have hshape : (p.1, p.2.shape) ∈ shapes := h.shaped r ▸ List.mem_map_of_mem hp
    have hne : p.1 ≠ m.1 := fun heq => hfree _ (heq ▸ hshape)
    rwa [if_neg hne]

/-- The members can be taken in one after another unless one of them has the wrong shape. -/
theorem exists_setMembers_eq_ok_iff (h : Describes fields defaults shapes parameters)
    (members : List (String × Value)) (r : ρ) :
    (∃ r', members.foldlM (Slot.setMember fields) r = .ok r') ↔
      ∀ m ∈ members, ∀ s, (m.1, s) ∈ shapes → s.Fits m.2 := by
  induction members generalizing r with
  | nil => exact ⟨fun _ m hm => absurd hm List.not_mem_nil, fun _ => ⟨r, rfl⟩⟩
  | cons m members ih =>
    rw [List.forall_mem_cons, ← h.exists_setMember_eq_ok_iff r]
    simp only [List.foldlM_cons, bind_eq_ok_iff]
    constructor
    · rintro ⟨r', next, hnext, hrest⟩
      exact ⟨⟨next, hnext⟩, (ih next).1 ⟨r', hrest⟩⟩
    · rintro ⟨⟨next, hnext⟩, hrest⟩
      obtain ⟨r', hr'⟩ := (ih next).2 hrest
      exact ⟨r', next, hnext, hr'⟩

/-- After all members each parameter is what one of them says, or what it was if none names it. -/
theorem of_setMembers (h : Describes fields defaults shapes parameters)
    (hok : members.foldlM (Slot.setMember fields) r = .ok r') {p : String × Parameter}
    (hp : p ∈ parameters r') :
    (∃ v, (p.1, v) ∈ members ∧ p.2.WrittenAs v) ∨
      ((∀ v, (p.1, v) ∉ members) ∧ p ∈ parameters r) := by
  induction members generalizing r with
  | nil =>
    cases hok
    exact .inr ⟨fun v => List.not_mem_nil, hp⟩
  | cons m members ih =>
    rw [List.foldlM_cons] at hok
    obtain ⟨next, hnext, hrest⟩ := bind_eq_ok_iff.1 hok
    obtain ⟨v, hv, hwritten⟩ | ⟨hfree, hkept⟩ := ih hrest
    · exact .inl ⟨v, List.mem_cons_of_mem _ hv, hwritten⟩
    · have hstep := h.of_setMember hnext hkept
      split_ifs at hstep with hname
      · exact .inl ⟨m.2, hname ▸ List.mem_cons_self, hstep⟩
      · refine .inr ⟨fun v hv => ?_, hstep⟩
        obtain rfl | hv := List.mem_cons.1 hv
        · exact hname rfl
        · exact hfree v hv

theorem exists_decode_eq_error_iff (h : Describes fields defaults shapes parameters)
    (wanted : Wanted) :
    (∃ fault, Slot.decode wanted fields defaults (.object members) = .error fault) ↔
      Misfit shapes members := by
  rw [exists_error_iff, ← not_iff_not, not_forall_not]
  refine (h.exists_setMembers_eq_ok_iff members defaults).trans ?_
  simp [Misfit]

theorem of_decode (h : Describes fields defaults shapes parameters) {wanted : Wanted}
    (hok : Slot.decode wanted fields defaults (.object members) = .ok r)
    {p : String × Parameter} (hp : p ∈ parameters r) : GivenBy members p :=
  (h.of_setMembers hok hp).imp_right fun ⟨hfree, hkept⟩ => ⟨hfree, h.initial p hkept⟩

/-- Rules made from such records are refused and given in the same way. -/
theorem map_decode (h : Describes fields defaults shapes parameters) {wanted : Wanted}
    {make : ρ → Rule} {family : Family}
    (hmake : ∀ r, (make r).family = family ∧ (make r).parameters = parameters r) :
    ((∃ fault, make <$> Slot.decode wanted fields defaults (.object members) = .error fault) ↔
      Misfit shapes members) ∧
    ∀ rule, make <$> Slot.decode wanted fields defaults (.object members) = .ok rule →
      rule.family = family ∧ ∀ p ∈ rule.parameters, GivenBy members p := by
  refine ⟨exists_map_eq_error_iff.trans (h.exists_decode_eq_error_iff wanted), fun rule hrule => ?_⟩
  obtain ⟨r, hr, rfl⟩ := map_eq_ok_iff.1 hrule
  refine ⟨(hmake r).1, fun p hp => h.of_decode hr ?_⟩
  rwa [(hmake r).2] at hp

end Describes

theorem Family.distinct_shapes (family : Family) : Distinct family.shapes := by
  cases family <;> simp [Distinct, shapes]

open Json.Slot

theorem LifeRule.describes :
    Describes LifeRule.fields {} (Family.shapes .life) LifeRule.parameters where
  sets := by
    refine .cons (sets_int32s ?_) (.cons (sets_int32s ?_) .nil)
    all_goals simp [parameters]
  distinct := Family.distinct_shapes .life
  shaped _ := rfl
  initial := by simp [parameters, Shape.initial, Parameter.shape]

theorem StochasticRule.describes :
    Describes StochasticRule.fields {} (Family.shapes .extendedStochastic)
      StochasticRule.parameters where
  sets := by
    refine .cons (sets_doubles ?_) (.cons (sets_doubles ?_) .nil)
    all_goals simp [parameters]
  distinct := Family.distinct_shapes .extendedStochastic
  shaped _ := rfl
  initial := by simp [parameters, Shape.initial, Parameter.shape]

theorem GenerationsRule.describes :
    Describes GenerationsRule.fields {} (Family.shapes .generations)
      GenerationsRule.parameters where
  sets := by
    refine .cons (sets_int32s ?_) (.cons (sets_int32s ?_) (.cons (sets_int32 ?_) .nil))
    all_goals simp [parameters]
  distinct := Family.distinct_shapes .generations
  shaped _ := rfl
  initial := by simp [parameters, Shape.initial, Parameter.shape]

theorem VoteRule.describes :
    Describes VoteRule.fields {} (Family.shapes .vote) VoteRule.parameters where
  sets := .cons (sets_int32s (by simp [parameters])) .nil
  distinct := Family.distinct_shapes .vote
  shaped _ := rfl
  initial := by simp [parameters, Shape.initial, Parameter.shape]

theorem LukyRule.describes :
    Describes LukyRule.fields {} (Family.shapes .luky) LukyRule.parameters where
  sets := by
    refine .cons (sets_int32 ?_) (.cons (sets_int32 ?_) (.cons (sets_int32 ?_)
      (.cons (sets_int32 ?_) .nil)))
    all_goals simp [parameters]
  distinct := Family.distinct_shapes .luky
  shaped _ := rfl
  initial := by simp [parameters, Shape.initial, Parameter.shape]

theorem NlukyRule.describes :
    Describes NlukyRule.fields {} (Family.shapes .nluky) NlukyRule.parameters where
  sets := by
    refine .cons (sets_int32 ?_) (.cons (sets_int32 ?_) (.cons (sets_int32 ?_)
      (.cons (sets_int32 ?_) (.cons (sets_int32 ?_) .nil))))
    all_goals simp [parameters]
  distinct := Family.distinct_shapes .nluky
  shaped _ := rfl
  initial := by simp [parameters, Shape.initial, Parameter.shape]

theorem CyclicRule.describes :
    Describes CyclicRule.fields {} (Family.shapes .cyclic) CyclicRule.parameters where
  sets := by
    refine .cons (sets_int32 ?_) (.cons (sets_int32 ?_) (.cons (sets_bool ?_) .nil))
    all_goals simp [parameters]
  distinct := Family.distinct_shapes .cyclic
  shaped _ := rfl
  initial := by simp [parameters, Shape.initial, Parameter.shape]

/-- A rule of a family is read from the members of an object unless one of them has the wrong shape,
and has the parameters that they give. -/
theorem Rule.readParams_object (members : List (String × Value)) (family : Family) :
    ((∃ fault, readParams (.object members) family = .error fault) ↔
      Misfit family.shapes members) ∧
    ∀ rule, readParams (.object members) family = .ok rule →
      rule.family = family ∧ ∀ p ∈ rule.parameters, GivenBy members p := by
  cases family with
  | life => exact LifeRule.describes.map_decode fun _ => ⟨rfl, rfl⟩
  | extendedLife => exact LifeRule.describes.map_decode fun _ => ⟨rfl, rfl⟩
  | extendedStochastic => exact StochasticRule.describes.map_decode fun _ => ⟨rfl, rfl⟩
  | generations => exact GenerationsRule.describes.map_decode fun _ => ⟨rfl, rfl⟩
  | extendedGenerations => exact GenerationsRule.describes.map_decode fun _ => ⟨rfl, rfl⟩
  | vote => exact VoteRule.describes.map_decode fun _ => ⟨rfl, rfl⟩
  | luky => exact LukyRule.describes.map_decode fun _ => ⟨rfl, rfl⟩
  | nluky => exact NlukyRule.describes.map_decode fun _ => ⟨rfl, rfl⟩
  | cyclic => exact CyclicRule.describes.map_decode fun _ => ⟨rfl, rfl⟩

end CellularShader
