/-!
# Files

A set of files is given by paths and what stands there: the bytes of a file, or a
directory.  The directories on the way to an entry are there too.

A path is followed from the root of the set, component by component.  Empty
components and `.` stay where they are, and `..` goes up.  A file has nothing below
it, not even an empty component, so `file/` cannot be read.  Above the root of the set
there are directories and nothing else.
-/

namespace Rebac

/-- Why a file cannot be read as text. -/
inductive ReadFailure where
  /-- There is nothing at the path. -/
  | missing
  /-- There is a directory at the path. -/
  | directory
  /-- The path goes through a file. -/
  | notDirectory
  /-- The bytes are not UTF-8. -/
  | notText
  /-- Any other failure, in words. -/
  | other (text : String)
  deriving Repr, DecidableEq

/-- The failure in words. -/
def ReadFailure.message : ReadFailure → String
  | .missing => "No such file or directory (os error 2)"
  | .directory => "Is a directory (os error 21)"
  | .notDirectory => "Not a directory (os error 20)"
  | .notText => "stream did not contain valid UTF-8"
  | .other text => text

/-- How texts are read: a path gives a text or a failure. -/
abbrev TextSource := String → Except ReadFailure String

/-- What stands at a path. -/
inductive FileEntry where
  | file (bytes : ByteArray)
  | directory

/-- A set of files, each with its path. -/
abbrev FileSet := List (String × FileEntry)

/-- The parts of a path between slashes. -/
def pathParts (path : String) : List String :=
  (path.toList.splitOn '/').map String.ofList

/-- The parts of a path that name something. -/
def pathNames (path : String) : List String :=
  (pathParts path).filter fun part => part ≠ "" ∧ part ≠ "."

/-- What stands at a place, given by the names that lead to it. -/
def FileSet.entry? (files : FileSet) (place : List String) : Option FileEntry :=
  match files.find? fun f => pathNames f.1 = place with
  | some f => some f.2
  | none =>
      if place.isEmpty ∨ files.any fun f => place.isPrefixOf (pathNames f.1) then some .directory
      else none

/-- Follows the parts of a path from above the root. -/
def followAbove (parts : List String) : Except ReadFailure FileEntry :=
  if parts.all fun part => part = "" ∨ part = "." ∨ part = ".." then .ok .directory
  else .error .missing

/-- Follows the parts of a path from a place. -/
def FileSet.follow (files : FileSet) : List String → List String → Except ReadFailure FileEntry
  | place, [] =>
      match files.entry? place with
      | some entry => .ok entry
      | none => .error .missing
  | place, part :: parts =>
      match files.entry? place with
      | none => .error .missing
      | some (.file _) => .error .notDirectory
      | some .directory =>
          if part = "" ∨ part = "." then files.follow place parts
          else if part = ".." then
            if place.isEmpty then followAbove parts else files.follow place.dropLast parts
          else files.follow (place ++ [part]) parts

/-- What a path leads to. -/
def FileSet.find (files : FileSet) (path : String) : Except ReadFailure FileEntry :=
  match pathParts path with
  | [""] => .error .missing
  | "" :: parts => followAbove parts
  | parts => files.follow [] parts

/-- Reads the text of a file. -/
def FileSet.read (files : FileSet) : TextSource := fun path => do
  match ← files.find path with
  | .directory => .error .directory
  | .file bytes =>
      match String.fromUTF8? bytes with
      | some text => .ok text
      | none => .error .notText

end Rebac
