/- # Files

The files that configurations are kept in, in a tree of directories. A name leads from the store's
own directory through directories to a file, with slashes between its parts. The part `.` stays in a
directory and `..` leaves it. A slash at the start leads to the root of all directories instead, and
one at the end asks for a directory. A name may so lead out of the store; what lies there is empty
until something is written.

Which error a name ends in depends on where the way along it breaks off first.
-/

namespace CellularShader

/-- A place in the tree, the innermost name first. The empty path is the store's own directory, one
that ends in `..` lies above it, and one that ends in `/` below the root. -/
abbrev Path := List String

namespace Path

/-- The root of all directories. -/
def root : Path := ["/"]

/-- The directory that a directory is in; the root is in itself. -/
def parent : Path → Path
  | [] => [".."]
  | ["/"] => root
  | ".." :: outer => ".." :: ".." :: outer
  | _ :: outer => outer

end Path

/-- The directories inside the store, and the contents of files. -/
structure Store where
  directories : List Path
  files : List (Path × ByteArray)

/-- Why a file cannot be read or written. -/
inductive FileError where
  | notFound
  | notADirectory
  | isADirectory
  | nameTooLong
  /-- The name has a null character in it. -/
  | nullInName
  | notText
deriving DecidableEq

namespace FileError

def message : FileError → String
  | notFound => "No such file or directory (os error 2)"
  | notADirectory => "Not a directory (os error 20)"
  | isADirectory => "Is a directory (os error 21)"
  | nameTooLong => "File name too long (os error 36)"
  | nullInName => "file name contained an unexpected NUL byte"
  | notText => "stream did not contain valid UTF-8"

end FileError

namespace Store

/-- A store without files. -/
def empty (subdirectories : List String) : Store := ⟨subdirectories.map ([·]), []⟩

/-- Whether a place is a directory. -/
def isDirectory (s : Store) (path : Path) : Bool :=
  path.all (· = "..") || path = Path.root || s.directories.contains path

/-- The contents of the file at a place. -/
def find? (s : Store) (path : Path) : Option ByteArray := s.files.lookup path

/-- The most bytes that one part of a name can have. -/
def longestPart : Nat := 255

/-- The most bytes that a name can have. -/
def longestName : Nat := 4095

/-- Puts a character before the parts of the text that follows it. -/
def prependToParts (c : Char) : List (List Char) → List (List Char)
  | [] => [[c]]
  | part :: parts => if c = '/' then [] :: part :: parts else (c :: part) :: parts

/-- The parts of a name between its slashes, some of which may be empty. -/
def nameParts (name : String) : List String :=
  (name.toList.foldr prependToParts [[]]).map String.ofList

/-- Goes one part further from a directory to a directory. -/
def enter (s : Store) (here : Path) (part : String) : Except FileError Path :=
  if part = "." then .ok here
  else if part = ".." then .ok (Path.parent here)
  else if longestPart < part.utf8ByteSize then .error .nameTooLong
  else if s.isDirectory (part :: here) then .ok (part :: here)
  else if (s.find? (part :: here)).isSome then .error .notADirectory
  else .error .notFound

/-- Where a name leads. -/
inductive Target where
  /-- A directory, whatever is in it. -/
  | directory
  /-- A place in a directory, and whether the name asks for a directory there. -/
  | entry (path : Path) (asDirectory : Bool)

/-- Follows a name up to its last part. -/
def locate (s : Store) (name : String) : Except FileError Target := do
  if name.toList.contains '\x00' then throw .nullInName
  if longestName < name.utf8ByteSize then throw .nameTooLong
  let parts := nameParts name
  let steps := parts.filter (· ≠ "")
  let start := if parts.head? = some "" && 1 < parts.length then Path.root else []
  let here ← steps.dropLast.foldlM s.enter start
  match steps.getLast? with
  | none | some "." | some ".." => return .directory
  | some last => return .entry (last :: here) (parts.getLast? = some "")

/-- The contents of the file at a place, if there is one. -/
def contentsAt (s : Store) (path : Path) : Except FileError (Option ByteArray) :=
  if path.head?.any (longestPart < ·.utf8ByteSize) then .error .nameTooLong
  else if s.isDirectory path then .error .isADirectory
  else .ok (s.find? path)

/-- The contents of a file. -/
def read (s : Store) (name : String) : Except FileError ByteArray := do
  match ← s.locate name with
  | .directory => throw .isADirectory
  | .entry path asDirectory =>
    match ← s.contentsAt path with
    | none => throw .notFound
    | some contents => if asDirectory then throw .notADirectory else return contents

/-- The contents of a file as text. -/
def readText (s : Store) (name : String) : Except FileError String := do
  match String.fromUTF8? (← s.read name) with
  | some text => return text
  | none => throw .notText

/-- Puts contents under a name, in place of what was there. A name that asks for a directory is
refused without a look at what is there. -/
def write (s : Store) (name : String) (contents : ByteArray) : Except FileError Store := do
  match ← s.locate name with
  | .directory | .entry _ true => throw .isADirectory
  | .entry path false =>
    let _ ← s.contentsAt path
    return { s with files := (path, contents) :: s.files.filter (·.1 ≠ path) }

end Store

end CellularShader
