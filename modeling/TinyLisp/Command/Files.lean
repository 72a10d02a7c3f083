import TinyLisp.Source.Reader

/-!
# Files

What a path leads to, seen from a working directory whose contents are given.
-/

namespace TinyLisp

/-- Why there is nothing to read. -/
inductive ReadError
  /-- There is no such file. -/
  | missing
  /-- The path leads through something that is not a directory. -/
  | notDirectory
  /-- The path leads to a directory. -/
  | isDirectory
  /-- The path, or a name in it, is too long. -/
  | nameTooLong
  /-- What was read is no text. -/
  | notText
  deriving DecidableEq, Repr

/-- The wording of an error. -/
def ReadError.message : ReadError → String
  | .missing => "No such file or directory (os error 2)"
  | .notDirectory => "Not a directory (os error 20)"
  | .isDirectory => "Is a directory (os error 21)"
  | .nameTooLong => "File name too long (os error 36)"
  | .notText => Utf8.complaint

/-- What a path leads to. -/
inductive Content
  /-- A file with the given bytes. -/
  | file (bytes : List UInt8)
  /-- A directory. -/
  | directory
  deriving DecidableEq, Repr

/-- The content as a text. -/
def Content.text : Content → Except ReadError String
  | .directory => .error .isDirectory
  | .file bytes =>
    match Utf8.strict? bytes with
    | none => .error .notText
    | some s => .ok s

/-- The content as a source of characters.  A directory can be opened, but reading
from it fails. -/
def Content.source : Content → Source
  | .directory => .ofChunks [.failed]
  | .file bytes => .ofBytes bytes

/-- What stands below a working directory, by path.  A directory need not be listed
if something stands below it. -/
abbrev Files := List (String × Content)

namespace Files

/-- The longest name in bytes that a directory can hold. -/
def nameLimit : Nat := 255

/-- The longest path in bytes that can be followed. -/
def pathLimit : Nat := 4095

/-- The parts of a path, between its slashes. -/
def parts (path : String) : List String :=
  (path.toList.splitOn '/').map String.ofList

/-- A part of a path that stays where it is. -/
def stays (part : String) : Bool :=
  part = "" || part = "."

/-- A place that a path leads to, whether or not anything stands there. -/
inductive Place
  /-- A place below the working directory: the names that lead to it, last first. -/
  | inside (names : List String)
  /-- A directory outside the working directory. -/
  | outside
  /-- A place in such a directory, where nothing stands. -/
  | nowhere
  deriving DecidableEq, Repr

/-- Goes one part further.  Two dots lead to the directory above. -/
def Place.enter (place : Place) (part : String) : Place :=
  if stays part then place
  else
    match place with
    | .inside names =>
      if part = ".." then
        match names with
        | [] => .outside
        | _ :: above => .inside above
      else .inside (part :: names)
    | .outside => if part = ".." then .outside else .nowhere
    | .nowhere => .nowhere

/-- The names that lead to an entry, last first. -/
def names (path : String) : List String :=
  ((parts path).filter (!stays ·)).reverse

/-- What stands at a place.  The working directory itself is always there. -/
def at? (files : Files) : Place → Option Content
  | .inside [] => some .directory
  | .inside place =>
    match files.find? fun entry => names entry.1 = place with
    | some entry => some entry.2
    | none =>
      if files.any fun entry => place.isSuffixOf (names entry.1) then some .directory else none
  | .outside => some .directory
  | .nowhere => none

/-- Follows the parts of a path.  Each of them has to be looked up in a directory,
which fails for a name that no directory can hold. -/
def follow (files : Files) (place : Place) : List String → Except ReadError Content
  | [] =>
    match files.at? place with
    | some content => .ok content
    | none => .error .missing
  | part :: rest =>
    match files.at? place with
    | none => .error .missing
    | some (.file _) => .error .notDirectory
    | some .directory =>
      if nameLimit < part.utf8ByteSize then .error .nameTooLong
      else follow files (place.enter part) rest

/-- Opens what a path leads to.  A path that starts with a slash does not start in
the working directory. -/
def openPath (files : Files) (path : String) : Except ReadError Content :=
  if pathLimit < path.utf8ByteSize then .error .nameTooLong
  else
    let start := if path.toList.head? = some '/' then Place.outside else Place.inside []
    follow files start (parts path)

end Files

end TinyLisp
