/- # Maps from lists of entries

Insertion in key order only rearranges entries whose keys are distinct. A map is therefore the map
of its entries in any order, and an entry is in the map of a list exactly when it is in the list.
-/

import CellularShader.SortedMap
import Mathlib.Data.List.Pairwise
import Mathlib.Data.List.Perm.Basic

namespace CellularShader

namespace SortedMap

variable {κ α : Type}

/-- Entries of which no two have the same key. -/
def Distinct (l : List (κ × α)) : Prop := l.Pairwise fun a b => a.1 ≠ b.1

instance : Std.Symm fun a b : κ × α => a.1 ≠ b.1 := ⟨fun _ _ h => h.symm⟩

theorem Distinct.eq_of_mem {l : List (κ × α)} (h : Distinct l) {e f : κ × α} (he : e ∈ l)
    (hf : f ∈ l) (hkey : e.1 = f.1) : e = f := by
  by_contra hne
  exact h.forall he hf hne hkey

variable [LT κ]

theorem eq_of_entries {m n : SortedMap κ α} (h : m.entries = n.entries) : m = n := by
  cases m
  cases n
  cases h
  rfl

/-- An entry whose key comes after all others is put at the end. -/
theorem insertEntry_of_last [DecidableRel (α := κ) (· < ·)] [Std.Asymm (α := κ) (· < ·)] {key : κ}
    (value : α) {l : List (κ × α)} (h : ∀ e ∈ l, e.1 < key) :
    insertEntry key value l = l ++ [(key, value)] := by
  induction l with
  | nil => rfl
  | cons e l ih =>
    have hlt : e.1 < key := h e List.mem_cons_self
    rw [insertEntry, if_neg (Std.Asymm.asymm _ _ hlt), if_pos hlt,
      ih fun f hf => h f (List.mem_cons_of_mem _ hf), List.cons_append]

theorem lt_of_split {l before after : List (κ × α)} {m : κ × α}
    (hsorted : l.Pairwise (fun a b => a.1 < b.1)) (h : before ++ m :: after = l) :
    ∀ e ∈ before, e.1 < m.1 := by
  subst h
  exact fun e he => (List.pairwise_append.1 hsorted).2.2 e he m List.mem_cons_self

/-- Every value replaced by a function of it. -/
def map {β : Type} (f : α → β) (m : SortedMap κ α) : SortedMap κ β :=
  ⟨m.entries.map fun e => (e.1, f e.2), List.pairwise_map.2 m.ascending⟩

theorem entries_map {β : Type} (f : α → β) (m : SortedMap κ α) :
    (m.map f).entries = m.entries.map fun e => (e.1, f e.2) := rfl

theorem map_eq_self {f : α → α} {m : SortedMap κ α} (h : ∀ e ∈ m.entries, f e.2 = e.2) :
    m.map f = m := by
  refine eq_of_entries ?_
  rw [entries_map, List.map_congr_left fun e he => congrArg (Prod.mk e.1) (h e he), List.map_id']

theorem distinct_entries [Std.Irrefl (α := κ) (· < ·)] (m : SortedMap κ α) :
    Distinct m.entries := by
  refine m.ascending.imp fun {a b} hlt heq => ?_
  exact Std.Irrefl.irrefl b.1 (heq ▸ hlt)

variable [DecidableRel (α := κ) (· < ·)]

/-- What holds of all values holds of them after an insertion. -/
theorem forall_insertEntry {P : α → Prop} {key : κ} {value : α} {l : List (κ × α)}
    (hvalue : P value) (h : ∀ e ∈ l, P e.2) : ∀ e ∈ insertEntry key value l, P e.2 := by
  fun_induction insertEntry key value l with
  | case1 => simpa using hvalue
  | case2 => exact List.forall_mem_cons.2 ⟨hvalue, h⟩
  | case3 k v rest _ _ ih =>
    obtain ⟨hv, hrest⟩ := List.forall_mem_cons.1 h
    exact List.forall_mem_cons.2 ⟨hv, ih hrest⟩
  | case4 => exact List.forall_mem_cons.2 ⟨hvalue, (List.forall_mem_cons.1 h).2⟩

theorem forall_insertEntries {P : α → Prop} {sorted l : List (κ × α)}
    (hsorted : ∀ e ∈ sorted, P e.2) (h : ∀ e ∈ l, P e.2) :
    ∀ e ∈ insertEntries sorted l, P e.2 := by
  induction l generalizing sorted with
  | nil => exact hsorted
  | cons e l ih =>
    obtain ⟨he, hrest⟩ := List.forall_mem_cons.1 h
    exact ih (forall_insertEntry he hsorted) hrest

/-- Values are replaced before or after an insertion alike. -/
theorem map_insertEntry {β : Type} (f : α → β) (key : κ) (value : α) (l : List (κ × α)) :
    (insertEntry key value l).map (fun e => (e.1, f e.2)) =
      insertEntry key (f value) (l.map fun e => (e.1, f e.2)) := by
  fun_induction insertEntry key value l with
  | case1 => rfl
  | case2 k v rest hlt => simp [insertEntry, hlt]
  | case3 k v rest hle hlt ih => simp [insertEntry, hle, hlt, ih]
  | case4 k v rest hle hge => simp [insertEntry, hle, hge]

theorem map_insertEntries {β : Type} (f : α → β) (sorted l : List (κ × α)) :
    (insertEntries sorted l).map (fun e => (e.1, f e.2)) =
      insertEntries (sorted.map fun e => (e.1, f e.2)) (l.map fun e => (e.1, f e.2)) := by
  induction l generalizing sorted with
  | nil => rfl
  | cons e l ih =>
    refine (ih (insertEntry e.1 e.2 sorted)).trans ?_
    rw [map_insertEntry]
    rfl

theorem perm_insertEntry [Std.Trichotomous (α := κ) (· < ·)] {key : κ} (value : α)
    {l : List (κ × α)} (hfresh : ∀ e ∈ l, key ≠ e.1) :
    (insertEntry key value l).Perm ((key, value) :: l) := by
  induction l with
  | nil => exact .refl _
  | cons e l ih =>
    have hne : key ≠ e.1 := hfresh e List.mem_cons_self
    have hrest := ih fun f hf => hfresh f (List.mem_cons_of_mem _ hf)
    unfold insertEntry
    split_ifs with hbefore hafter
    · exact .refl _
    · exact (hrest.cons e).trans (.swap _ _ _)
    · exact absurd (Std.Trichotomous.trichotomous key e.1 hbefore hafter) hne

theorem perm_insertEntries [Std.Trichotomous (α := κ) (· < ·)] {sorted l : List (κ × α)}
    (h : Distinct (l ++ sorted)) : (insertEntries sorted l).Perm (l ++ sorted) := by
  -- Every entry inserted moves from the list to the sorted ones, which keeps the keys distinct.
  induction l generalizing sorted with
  | nil => exact .refl _
  | cons e l ih =>
    obtain ⟨hfresh, hrest⟩ := List.pairwise_cons.1 h
    have hinsert := perm_insertEntry e.2 fun f hf => hfresh f (List.mem_append_right _ hf)
    have hmoved : (l ++ insertEntry e.1 e.2 sorted).Perm (e :: (l ++ sorted)) :=
      (hinsert.append_left l).trans List.perm_middle
    have hdistinct : Distinct (l ++ insertEntry e.1 e.2 sorted) :=
      (hmoved.pairwise_iff fun hab => hab.symm).2 h
    exact (ih hdistinct).trans hmoved

theorem perm_insertEntries_nil [Std.Trichotomous (α := κ) (· < ·)] {l : List (κ × α)}
    (h : Distinct l) : (insertEntries [] l).Perm l := by
  rw [← List.append_nil l] at h
  simpa using perm_insertEntries h

variable [KeyOrder κ]

theorem entries_ofList (l : List (κ × α)) : (ofList l).entries = insertEntries [] l := by
  have hfold (m : SortedMap κ α) : (l.foldl (fun m e => m.insert e.1 e.2) m).entries =
      insertEntries m.entries l := by
    induction l generalizing m with
    | nil => rfl
    | cons e l ih => exact ih (m.insert e.1 e.2)
  exact hfold .empty

theorem map_ofList {β : Type} (f : α → β) (l : List (κ × α)) :
    (ofList l).map f = ofList (l.map fun e => (e.1, f e.2)) := by
  refine eq_of_entries ?_
  rw [entries_map, entries_ofList, entries_ofList, map_insertEntries, List.map_nil]

theorem perm_entries_ofList [Std.Trichotomous (α := κ) (· < ·)] {l : List (κ × α)}
    (h : Distinct l) : (ofList l).entries.Perm l := by
  rw [entries_ofList]
  exact perm_insertEntries_nil h

/-- A map is the map of its entries, in whatever order they come. -/
theorem ofList_of_perm [Std.Trichotomous (α := κ) (· < ·)] [Std.Asymm (α := κ) (· < ·)]
    {m : SortedMap κ α} {l : List (κ × α)} (h : l.Perm m.entries) : ofList l = m := by
  have hdistinct : Distinct l := (h.pairwise_iff fun hab => hab.symm).2 m.distinct_entries
  refine eq_of_entries (List.Perm.eq_of_pairwise ?_ (ofList l).ascending m.ascending
    ((perm_entries_ofList hdistinct).trans h))
  exact fun a b _ _ hab hba => absurd hba (Std.Asymm.asymm _ _ hab)

/-- A map is determined by which entries it has. -/
theorem eq_of_mem_iff [Std.Trichotomous (α := κ) (· < ·)] [Std.Asymm (α := κ) (· < ·)]
    {m n : SortedMap κ α} (h : ∀ e, e ∈ m.entries ↔ e ∈ n.entries) : m = n := by
  have hnodup (m : SortedMap κ α) : m.entries.Nodup :=
    m.distinct_entries.imp fun hne heq => hne (congrArg Prod.fst heq)
  have hperm := (List.perm_ext_iff_of_nodup (hnodup m) (hnodup n)).2 h
  rw [← ofList_of_perm hperm, ofList_of_perm (.refl m.entries)]

end SortedMap

end CellularShader
