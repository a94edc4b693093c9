/- # Maps in key order

A finite map is kept as the list of its entries in strictly ascending key order, so equal maps are
equal lists and walking a map means walking its list. Insertion replaces the entry of a key that is
present.
-/

namespace CellularShader

variable {κ α : Type}

/-- Keys whose order is transitive, so that a map can be kept in it. -/
class KeyOrder (κ : Type) [LT κ] : Prop where
  lt_trans : ∀ {a b c : κ}, a < b → b < c → a < c

instance : KeyOrder Int32 := ⟨Int32.lt_trans⟩

instance : KeyOrder String := ⟨String.lt_trans⟩

/-- Entries in strictly ascending key order. -/
structure SortedMap (κ α : Type) [LT κ] where
  entries : List (κ × α)
  ascending : entries.Pairwise (fun a b => a.1 < b.1)

namespace SortedMap

variable [LT κ] [DecidableRel (α := κ) (· < ·)]

/-- Puts an entry in its place among sorted entries. -/
def insertEntry (key : κ) (value : α) : List (κ × α) → List (κ × α)
  | [] => [(key, value)]
  | (k, v) :: rest =>
    if key < k then (key, value) :: (k, v) :: rest
    else if k < key then (k, v) :: insertEntry key value rest
    else (k, value) :: rest

/-- Inserts one entry after another, so the last one for a key stays. -/
def insertEntries (sorted entries : List (κ × α)) : List (κ × α) :=
  entries.foldl (fun sorted entry => insertEntry entry.1 entry.2 sorted) sorted

theorem key_mem_insertEntry {key : κ} {value : α} {l : List (κ × α)} {e : κ × α}
    (h : e ∈ insertEntry key value l) : e.1 = key ∨ ∃ f ∈ l, f.1 = e.1 := by
  fun_induction insertEntry key value l with
  | case1 => simp_all
  | case2 k v rest hlt =>
    rcases List.mem_cons.1 h with rfl | h
    · exact Or.inl rfl
    · exact Or.inr ⟨e, h, rfl⟩
  | case3 k v rest _ _ ih =>
    rcases List.mem_cons.1 h with rfl | h
    · exact Or.inr ⟨(k, v), List.mem_cons_self, rfl⟩
    · rcases ih h with h | ⟨f, hf, he⟩
      · exact Or.inl h
      · exact Or.inr ⟨f, List.mem_cons_of_mem _ hf, he⟩
  | case4 k v rest _ _ =>
    rcases List.mem_cons.1 h with rfl | h
    · exact Or.inr ⟨(k, v), List.mem_cons_self, rfl⟩
    · exact Or.inr ⟨e, List.mem_cons_of_mem _ h, rfl⟩

theorem pairwise_insertEntry [KeyOrder κ] (key : κ) (value : α)
    {l : List (κ × α)} (h : l.Pairwise (fun a b => a.1 < b.1)) :
    (insertEntry key value l).Pairwise (fun a b => a.1 < b.1) := by
  fun_induction insertEntry key value l with
  | case1 => simp
  | case2 k v rest hlt =>
    refine List.pairwise_cons.2 ⟨fun e he => ?_, h⟩
    rcases List.mem_cons.1 he with rfl | he
    · exact hlt
    · exact KeyOrder.lt_trans hlt ((List.pairwise_cons.1 h).1 e he)
  | case3 k v rest _ hlt ih =>
    obtain ⟨hk, hrest⟩ := List.pairwise_cons.1 h
    refine List.pairwise_cons.2 ⟨fun e he => ?_, ih hrest⟩
    rcases key_mem_insertEntry he with heq | ⟨f, hf, heq⟩
    · exact heq ▸ hlt
    · exact heq ▸ hk f hf
  | case4 k v rest _ _ =>
    obtain ⟨hk, hrest⟩ := List.pairwise_cons.1 h
    exact List.pairwise_cons.2 ⟨hk, hrest⟩

def empty : SortedMap κ α := ⟨[], List.Pairwise.nil⟩

/-- Inserts an entry or replaces the one with the same key. -/
def insert [KeyOrder κ] (m : SortedMap κ α) (key : κ) (value : α) :
    SortedMap κ α :=
  ⟨insertEntry key value m.entries, pairwise_insertEntry key value m.ascending⟩

/-- The map of a list of entries, the last one for a key being kept. -/
def ofList [KeyOrder κ] (entries : List (κ × α)) : SortedMap κ α :=
  entries.foldl (fun m entry => m.insert entry.1 entry.2) empty

/-- Removes the entry of a key. -/
def erase [DecidableEq κ] (m : SortedMap κ α) (key : κ) : SortedMap κ α :=
  ⟨m.entries.filter (·.1 ≠ key), m.ascending.filter _⟩

/-- Whether a key has an entry. -/
def contains [DecidableEq κ] (m : SortedMap κ α) (key : κ) : Bool :=
  m.entries.any (·.1 = key)

/-- The keys in ascending order. -/
def keys (m : SortedMap κ α) : List κ := m.entries.map (·.1)

end SortedMap

end CellularShader
