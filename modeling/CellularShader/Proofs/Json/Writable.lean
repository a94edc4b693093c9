/- # Values that are read have a text

A value that is read nests no deeper than the reader's limit, and its objects are in key order. So
it has a text again, which nests no deeper than the one it was read from.
-/

import CellularShader.Proofs.Json.Nesting

namespace CellularShader

namespace Json

/-! ## Lists and objects -/

section

variable {α σ : Type} {text rest : List Char}

/-- What holds of every element that can be read holds of all elements of a list. -/
theorem forall_of_readElements {item : Reader α} {P : α → Prop}
    (hitem : ∀ {text x rest}, item text = .ok (x, rest) → P x) {bound : List Char} {first : Bool}
    {xs : List α} (h : readElements item bound first text = .ok (xs, rest)) : ∀ x ∈ xs, P x := by
  induction bound generalizing first text xs with
  | nil => cases h
  | cons c bound ih =>
    obtain ⟨more, middle, -, h⟩ := Reader.exists_of_bind_ok h
    cases more with
    | false =>
      cases h
      simp
    | true =>
      obtain ⟨x, middle, hx, h⟩ := Reader.exists_of_bind_ok h
      obtain ⟨xs, middle, hxs, h⟩ := Reader.exists_of_bind_ok h
      cases h
      exact List.forall_mem_cons.2 ⟨hitem hx, ih hxs⟩

/-- What every member keeps up holds after all members. -/
theorem invariant_of_readMembers {member : String → σ → Reader σ} {P : σ → Prop}
    (hmember : ∀ {key state text state' rest}, member key state text = .ok (state', rest) →
      P state → P state') {bound : List Char} {first : Bool} {state state' : σ}
    (h : readMembers member bound first state text = .ok (state', rest)) (hP : P state) :
    P state' := by
  induction bound generalizing first text state with
  | nil => cases h
  | cons c bound ih =>
    obtain ⟨more, middle, -, h⟩ := Reader.exists_of_bind_ok h
    cases more with
    | false =>
      cases h
      exact hP
    | true =>
      obtain ⟨key, middle, -, h⟩ := Reader.exists_of_bind_ok h
      obtain ⟨next, middle, hnext, h⟩ := Reader.exists_of_bind_ok h
      exact ih h (hmember hnext hP)

end

theorem isWritable_readValueWith {nested : Option (Reader Value)} {limit : Nat}
    (hnested : ∀ item, nested = some item → ∃ inner, limit = inner + 1 ∧
      ∀ {text v rest}, item text = .ok (v, rest) → v.IsWritable inner)
    {text rest : List Char} {v : Value} (h : readValueWith nested text = .ok (v, rest)) :
    v.IsWritable limit := by
  unfold readValueWith at h
  split at h
  case h_1 => cases h
  case h_2 =>
    obtain ⟨_, -, rfl⟩ := Reader.exists_of_map_ok h
    exact .null
  case h_3 =>
    obtain ⟨_, -, rfl⟩ := Reader.exists_of_map_ok h
    exact .bool _
  case h_4 =>
    obtain ⟨_, -, rfl⟩ := Reader.exists_of_map_ok h
    exact .bool _
  case h_5 =>
    obtain ⟨_, -, rfl⟩ := Reader.exists_of_map_ok h
    exact .string _
  case h_6 =>
    split at h
    · cases h
    · obtain ⟨inner, rfl, hitem⟩ := hnested _ rfl
      obtain ⟨elements, helements, rfl⟩ := Reader.exists_of_map_ok h
      obtain ⟨elements, _, hread, hclose⟩ := Reader.exists_of_bind_ok helements
      obtain ⟨_, _, -, hpure⟩ := Reader.exists_of_bind_ok hclose
      cases hpure
      exact .array (forall_of_readElements hitem hread)
  case h_7 =>
    split at h
    · cases h
    · obtain ⟨inner, rfl, hitem⟩ := hnested _ rfl
      obtain ⟨members, hmembers, rfl⟩ := Reader.exists_of_map_ok h
      have hinvariant : (∀ m ∈ members, m.2.IsWritable inner) ∧
          members.Pairwise (fun a b => a.1 < b.1) := by
        refine invariant_of_readMembers (P := fun members : List (String × Value) =>
          (∀ m ∈ members, m.2.IsWritable inner) ∧ members.Pairwise (fun a b => a.1 < b.1))
          ?_ hmembers ⟨by simp, .nil⟩
        intro key members text members' rest hmember hbefore
        obtain ⟨_, _, -, hmember⟩ := Reader.exists_of_bind_ok hmember
        obtain ⟨v, _, hv, hpure⟩ := Reader.exists_of_bind_ok hmember
        cases hpure
        exact ⟨SortedMap.forall_insertEntry (hitem hv) hbefore.1,
          SortedMap.pairwise_insertEntry key v hbefore.2⟩
      exact .object hinvariant.1 hinvariant.2
  case h_8 =>
    split at h
    · obtain ⟨n, -, rfl⟩ := Reader.exists_of_map_ok h
      exact .number n
    · cases h

/-- A value that is read has a text that nests no deeper. -/
theorem isWritable_readValue {limit : Nat} {text rest : List Char} {v : Value}
    (h : readValue limit text = .ok (v, rest)) : v.IsWritable limit := by
  induction limit generalizing text rest v with
  | zero => exact isWritable_readValueWith (fun item hitem => by cases hitem) h
  | succ limit ih =>
    refine isWritable_readValueWith (fun item hitem => ⟨limit, rfl, fun {text v rest} hv => ?_⟩) h
    cases hitem
    exact ih hv

end Json

end CellularShader
