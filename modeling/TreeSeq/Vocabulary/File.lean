import TreeSeq.Vocabulary.Inverse

/-!
# Vocabulary files

A vocabulary file has a token a line; the token of line `n`, counted from 0,
has the id `n`. An empty line is the empty token. One line feed at the end of
the file and one carriage return at the end of a line do not count. A token
holds no blank and stands once.
-/

namespace TreeSeq.Vocabulary

/-- The lines of a vocabulary file. -/
def fileLines (text : String) : List String :=
  if text.isEmpty then []
  else
    let body := Text.dropLastIf '\n' text.toList
    (body.splitOn '\n').map fun line => String.ofList (Text.dropLastIf '\r' line)

/-- Adds the tokens of the lines from number `line` on, counted from 1. -/
def readLines (vocabulary : Vocabulary) (line : Nat) : List String → Except Error Vocabulary
  | [] => .ok vocabulary
  | token :: rest =>
    if Text.anyBlank token then .error (.vocabulary line (.blankInToken token))
    else match vocabulary.idOf? token with
      | some id => .error (.vocabulary line (.repeatedToken token (id + 1)))
      | none => readLines (vocabulary.insert token) (line + 1) rest

/-- Reads the text of a vocabulary file. -/
def parse (text : String) : Except Error Vocabulary :=
  readLines .empty 1 (fileLines text)

/-- Reads a vocabulary file. -/
def load (bytes : ByteArray) : Except Error Vocabulary :=
  match String.fromUTF8? bytes with
  | some text => parse text
  | none => .error (.file .notText)

/-- The text of a vocabulary file. The ids must be the numbers of lines. -/
def save (vocabulary : Vocabulary) : Except Error String :=
  match vocabulary.invert with
  | .ok inverse => .ok (Text.unlines (inverse.entries.map (·.2)))
  | .error e => .error e

end TreeSeq.Vocabulary
