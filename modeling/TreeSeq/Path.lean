/-!
# Paths

A path is a text of names with slashes between them. The names `.` and the
empty name stay where they are, `..` goes up.
-/

namespace TreeSeq

/-- A path, as it is written. -/
structure Path where
  text : String
  deriving DecidableEq, Inhabited

namespace Path

/-- The names between the slashes. -/
def parts (path : Path) : List String :=
  (path.text.toList.splitOn '/').map String.ofList

/-- The path of names with slashes between them. -/
def ofParts (parts : List String) : Path :=
  ⟨"/".intercalate parts⟩

/-- Does the name stay where it is? -/
def stays (part : String) : Bool :=
  part == "" || part == "."

/-- Goes on from a path along a text. A text that starts with a slash starts
over. -/
def join (path : Path) (text : String) : Path :=
  if text.startsWith "/" then ⟨text⟩
  else if path.text.isEmpty || path.text.endsWith "/" then ⟨path.text ++ text⟩
  else ⟨path.text ++ "/" ++ text⟩

/-- Goes on from a path name by name. -/
def joinAll (path : Path) (names : List String) : Path :=
  names.foldl join path

/-- The directory that a path leads into last. -/
def parent (path : Path) : Path :=
  ofParts (path.parts.reverse.dropWhile stays).tail.reverse

/-- The last name of a path. -/
def fileName (path : Path) : String :=
  (path.parts.reverse.dropWhile stays).headD ""

/-- The text of a file name before the last dot. A dot at its start does not
count. -/
def stem (name : String) : String :=
  let front := (name.toList.reverse.dropWhile (· != '.')).tail.reverse
  if front.isEmpty then name else String.ofList front

end Path

end TreeSeq
