/- # What the decoders of values accept

Each decoder of a parameter accepts exactly the values that the parameter is written as: an integer
of 32 bits, a list of such integers, a truth value, or an object whose keys are the integers in
decimal digits and whose members are numbers. Of several members under one key the last one stays.
-/

import CellularShader.Json.Decode
import CellularShader.Proofs.Json.Scalar
import CellularShader.Proofs.Outcome

namespace CellularShader

namespace Json

open Outcome

/-! ## Scalars -/

namespace Value

variable {v : Value}

theorem toInt32_eq_ok_iff {n : Int32} : v.toInt32 = .ok n ↔ v = ofInt32 n := by
  constructor
  · intro h
    unfold toInt32 at h
    split at h
    case h_1 m _ =>
      split at h
      case isTrue hrange =>
        have hm : (Int32.ofInt m).toInt = m :=
          Int32.toInt_ofInt_of_le hrange.1 (Int.lt_add_one_of_le hrange.2)
        simp only [ofInt32, ← Except.ok.inj h, hm]
      case isFalse => cases h
    case h_2 => cases h
  · rintro rfl
    have hrange : Int32.minValue.toInt ≤ n.toInt ∧ n.toInt ≤ Int32.maxValue.toInt :=
      ⟨n.minValue_le_toInt, n.toInt_le⟩
    rw [ofInt32, toInt32, if_pos hrange, Int32.ofInt_toInt]

theorem ofDouble_of_isFinite {x : Double} (hx : x.isFinite = true) :
    ofDouble x = .number (.float x hx) := by
  simp [ofDouble, Number.ofDouble?, hx]

theorem toBool_eq_ok_iff {b : Bool} : v.toBool = .ok b ↔ v = .bool b := by
  cases v <;> simp [toBool]

theorem toInt32s_eq_ok_iff {counts : List Int32} :
    v.toList toInt32 = .ok counts ↔ v = ofInt32s counts := by
  cases v with
  | array elements =>
    simp only [toList, mapM_eq_ok_iff, toInt32_eq_ok_iff, ofInt32s, array.injEq]
    rw [← List.forall₂_map_right_iff, List.forall₂_eq_eq_eq]
  | _ => simp [toList, ofInt32s]

end Value

/-! ## Maps -/

theorem Value.toDouble_eq_ok_iff {v : Value} {x : Double} :
    v.toDouble = .ok x ↔ ∃ n, v = .number n ∧ x = n.toDouble := by
  constructor
  · intro h
    unfold Value.toDouble at h
    split at h
    · exact ⟨_, rfl, (Except.ok.inj h).symm⟩
    · cases h
  · rintro ⟨n, rfl, rfl⟩
    rfl

/-- A key is an integer of 32 bits when it is written as one, without any other spelling. -/
theorem int32OfKey_eq_ok_iff {key : String} {n : Int32} :
    int32OfKey key = .ok n ↔ key = n.toInt.repr := by
  constructor
  · intro h
    unfold int32OfKey at h
    split at h
    case h_1 => cases h
    case h_2 c rest hkey =>
      split at h
      case isFalse => cases h
      case isTrue =>
        obtain ⟨⟨number, leftover⟩, hread, h⟩ := bind_eq_ok_iff.1 h
        obtain ⟨count, hcount, h⟩ := bind_eq_ok_iff.1 h
        split at h
        case isFalse => cases h
        case isTrue hnone =>
          cases h
          cases Value.toInt32_eq_ok_iff.1 hcount
          have htext := readNumber_eq_integer hread
          rw [List.isEmpty_iff.1 hnone, List.append_nil, ← hkey] at htext
          exact String.toList_inj.1 htext
  · rintro rfl
    have hread : readNumber n.toInt.repr.toList =
        .ok (.integer n.toInt (isWord_toInt n), []) := by
      simpa using readNumber_integer (isWord_toInt n) ends_nil
    have hcount : (Value.ofInt32 n).toInt32 = .ok n := Value.toInt32_eq_ok_iff.2 rfl
    obtain ⟨c, rest, htext, hstart⟩ :=
      Numeral.starts_plainText (n.toInt < 0) (isWhole_toDigits n.toInt.natAbs) []
    rw [← toList_repr_eq_plainText] at htext
    rw [htext] at hread
    simp only [int32OfKey, htext, hstart, if_true, bind_eq_ok_iff]
    exact ⟨_, hread, n, hcount, rfl⟩

/-- A member that gives a count its chance. -/
def IsChance (member : String × Value) (entry : Int32 × Double) : Prop :=
  member.1 = entry.1.toInt.repr ∧ ∃ n, member.2 = .number n ∧ entry.2 = n.toDouble

theorem Value.toIntMap_eq_ok_iff {v : Value} {m : SortedMap Int32 Double} :
    v.toIntMap toDouble = .ok m ↔ ∃ members entries,
      v = .object members ∧ List.Forall₂ IsChance members entries ∧ m = .ofList entries := by
  -- From any map on, the members are inserted one after another.
  have hfold (members : List (String × Value)) (start : SortedMap Int32 Double) :
      members.foldlM (fun m (member : String × Value) => do
        let count ← int32OfKey member.1
        return m.insert count (← toDouble member.2)) start = .ok m ↔
      ∃ entries, List.Forall₂ IsChance members entries ∧
        m = entries.foldl (fun m entry => m.insert entry.1 entry.2) start := by
    induction members generalizing start with
    | nil =>
      simp only [List.foldlM_nil, List.forall₂_nil_left_iff, exists_eq_left, List.foldl_nil]
      exact ⟨fun h => (Except.ok.inj h).symm, fun h => h ▸ rfl⟩
    | cons member members ih =>
      simp only [List.foldlM_cons, bind_eq_ok_iff, ih, int32OfKey_eq_ok_iff, toDouble_eq_ok_iff,
        List.forall₂_cons_left_iff]
      constructor
      · rintro ⟨_, ⟨count, hkey, x, hx, hinsert⟩, entries, hentries, rfl⟩
        cases hinsert
        exact ⟨(count, x) :: entries, ⟨(count, x), entries, ⟨hkey, hx⟩, hentries, rfl⟩, rfl⟩
      · rintro ⟨_, ⟨⟨count, x⟩, entries, ⟨hkey, hx⟩, hentries, rfl⟩, rfl⟩
        exact ⟨_, ⟨count, hkey, x, hx, rfl⟩, entries, hentries, rfl⟩
  cases v with
  | object members =>
    refine (hfold members .empty).trans ⟨?_, ?_⟩
    · rintro ⟨entries, hentries, rfl⟩
      exact ⟨members, entries, rfl, hentries, rfl⟩
    · rintro ⟨_, entries, heq, hentries, rfl⟩
      cases heq
      exact ⟨entries, hentries, rfl⟩
  | _ => simp [toIntMap]

end Json

end CellularShader
