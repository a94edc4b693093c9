/- # What is written under a name is read under it

Writing adds a file and no directory, so every way that led through directories before still does,
and the name leads to the same place afterwards.
-/

import CellularShader.Proofs.Outcome
import CellularShader.Store

namespace CellularShader

namespace Store

/-- A place where a file is or can be put. -/
def Admits (s : Store) (path : Path) : Prop :=
  s.isDirectory path = false ∧ ∀ part, path.head? = some part → part.utf8ByteSize ≤ longestPart

/-- A name that leads to a place where a file is or can be put. -/
def Accepts (s : Store) (name : String) : Prop :=
  ∃ path, s.locate name = .ok (.entry path false) ∧ s.Admits path

/-- The store with a file put in its place. -/
def put (s : Store) (path : Path) (contents : ByteArray) : Store :=
  { s with files := (path, contents) :: s.files.filter (·.1 ≠ path) }

variable {s t : Store} {name : String} {path : Path}

theorem contentsAt_eq_ok_iff {found : Option ByteArray} :
    s.contentsAt path = .ok found ↔ s.Admits path ∧ s.find? path = found := by
  -- The root has no last part, so there is no length to test.
  have hlong : path.head?.any (longestPart < ·.utf8ByteSize) = false ↔
      ∀ part, path.head? = some part → part.utf8ByteSize ≤ longestPart := by
    cases path.head? <;> simp
  rw [Admits, ← hlong, contentsAt]
  cases path.head?.any (longestPart < ·.utf8ByteSize) <;> cases s.isDirectory path <;> simp

/-- Writing succeeds just where a file can be put, and then puts it there. -/
theorem write_eq_ok_iff {contents : ByteArray} :
    s.write name contents = .ok t ↔ ∃ path, s.locate name = .ok (.entry path false) ∧
      s.Admits path ∧ s.put path contents = t := by
  rw [write]
  cases hlocate : s.locate name with
  | error e => simp [bind, Except.bind]
  | ok target =>
    -- A name that leads to a directory, or ends like one, is refused without a look at the files.
    match target with
    | .directory => simp [bind, Except.bind, throw, throwThe, MonadExceptOf.throw]
    | .entry path true => simp [bind, Except.bind, throw, throwThe, MonadExceptOf.throw]
    | .entry path false =>
      cases hcontents : s.contentsAt path with
      | error e =>
        have hnot : ¬s.Admits path := fun h => by
          rw [contentsAt_eq_ok_iff.2 ⟨h, rfl⟩] at hcontents
          cases hcontents
        simp [bind, Except.bind, hcontents, hnot]
      | ok found =>
        have hadmits := (contentsAt_eq_ok_iff.1 hcontents).1
        simp [bind, Except.bind, pure, Except.pure, hcontents, hadmits, put]

theorem accepts_iff_write {contents : ByteArray} :
    s.Accepts name ↔ ∃ t, s.write name contents = .ok t := by
  simp only [write_eq_ok_iff]
  constructor
  · rintro ⟨path, hlocate, hadmits⟩
    exact ⟨_, path, hlocate, hadmits, rfl⟩
  · rintro ⟨t, path, hlocate, hadmits, -⟩
    exact ⟨path, hlocate, hadmits⟩

/-! ## The way to a file -/

theorem isDirectory_put (s : Store) (path : Path) (contents : ByteArray) (there : Path) :
    (s.put path contents).isDirectory there = s.isDirectory there := rfl

theorem find?_put (s : Store) (path : Path) (contents : ByteArray) :
    (s.put path contents).find? path = some contents := by
  simp [find?, put]

theorem enter_put (path : Path) (contents : ByteArray) {here there : Path} {part : String}
    (h : s.enter here part = .ok there) : (s.put path contents).enter here part = .ok there := by
  simp only [enter] at h ⊢
  by_cases hdot : part = "."
  · rwa [if_pos hdot] at h ⊢
  rw [if_neg hdot] at h ⊢
  by_cases hparent : part = ".."
  · rwa [if_pos hparent] at h ⊢
  rw [if_neg hparent] at h ⊢
  by_cases hlong : longestPart < part.utf8ByteSize
  · rwa [if_pos hlong] at h ⊢
  rw [if_neg hlong] at h ⊢
  by_cases hdirectory : s.isDirectory (part :: here) = true
  · rw [if_pos hdirectory] at h
    rwa [if_pos (isDirectory_put s path contents _ ▸ hdirectory)]
  -- Only what goes wrong from here on depends on the files.
  rw [if_neg hdirectory] at h
  split at h <;> cases h

theorem foldlM_enter_put (path : Path) (contents : ByteArray) {here there : Path}
    {steps : List String} (h : steps.foldlM s.enter here = .ok there) :
    steps.foldlM (s.put path contents).enter here = .ok there := by
  -- Each part leads to the same place as before, so the rest starts where it did.
  induction steps generalizing here with
  | nil => exact h
  | cons part steps ih =>
    rw [List.foldlM_cons] at h ⊢
    obtain ⟨next, hpart, hrest⟩ := Outcome.bind_eq_ok_iff.1 h
    rw [enter_put path contents hpart]
    exact ih hrest

theorem locate_put (path : Path) (contents : ByteArray) {target : Target}
    (h : s.locate name = .ok target) : (s.put path contents).locate name = .ok target := by
  simp only [locate] at h ⊢
  by_cases hnull : name.toList.contains '\x00' = true
  · rw [if_pos hnull] at h
    cases h
  rw [if_neg hnull] at h ⊢
  by_cases hlong : longestName < name.utf8ByteSize
  · rw [if_pos hlong] at h
    cases h
  rw [if_neg hlong] at h ⊢
  obtain ⟨here, hsteps, hlast⟩ := Outcome.bind_eq_ok_iff.1 h
  rw [foldlM_enter_put path contents hsteps]
  exact hlast

/-- What is written under a name is read under it. -/
theorem read_of_write {contents : ByteArray} (h : s.write name contents = .ok t) :
    t.read name = .ok contents := by
  obtain ⟨path, hlocate, hadmits, rfl⟩ := write_eq_ok_iff.1 h
  have hcontents : (s.put path contents).contentsAt path = .ok (some contents) :=
    contentsAt_eq_ok_iff.2 ⟨hadmits, find?_put s path contents⟩
  rw [read, locate_put path contents hlocate]
  simp [bind, Except.bind, hcontents, pure, Except.pure]

theorem fromUTF8?_toUTF8 (text : String) : String.fromUTF8? text.toUTF8 = some text :=
  dif_pos text.isValidUTF8

theorem readText_of_write {text : String} (h : s.write name text.toUTF8 = .ok t) :
    t.readText name = .ok text := by
  rw [readText, read_of_write h]
  simp only [bind, Except.bind, fromUTF8?_toUTF8]
  rfl

/-- A name with a detour in it names the same file. -/
example : (((Store.empty ["dir"]).write "dir/./b" "text".toUTF8).bind
    (·.readText "dir/../dir//b")).toOption = some "text" := by
  decide +kernel

end Store

end CellularShader
