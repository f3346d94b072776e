import TreeSeq.Text.Numeral
import TreeSeq.Vocabulary.Inverse

/-!
# Token streams

A line of text is hashed to the ids of its words; words that the vocabulary
does not have are dropped. A stream of ids is written in decimal with single
spaces, and stands for its tokens with single spaces between them.
-/

namespace TreeSeq

/-- The ids of a line. -/
abbrev TokenStream := List Nat

namespace TokenStream

/-- Ids are below this number. -/
def idLimit : Nat := UInt32.size

/-- The text of a stream. -/
def text (stream : TokenStream) : String :=
  " ".intercalate (stream.map toString)

/-- Reads the ids of some words, after those read before, latest first. -/
def ofWords (read : List Nat) : List String → Except Error TokenStream
  | [] => .ok read.reverse
  | word :: rest =>
    match Text.readBelow? idLimit word with
    | some id => ofWords (id :: read) rest
    | none => .error (.tokenStream word)

/-- Reads a stream. -/
def parse (line : String) : Except Error TokenStream :=
  ofWords [] (Text.words line)

end TokenStream

/-- A vocabulary with its inverse. -/
structure Hasher where
  vocabulary : Vocabulary
  inverse : Inverse
  inverts : vocabulary.invert = .ok inverse

namespace Hasher

/-- The hasher of a vocabulary that has an inverse. -/
def ofVocabulary (vocabulary : Vocabulary) : Except Error Hasher :=
  match h : vocabulary.invert with
  | .ok inverse => .ok ⟨vocabulary, inverse, h⟩
  | .error e => .error e

/-- The ids of the known words of a line. -/
def hash (hasher : Hasher) (line : String) : TokenStream :=
  (Text.words line).filterMap hasher.vocabulary.idOf?

/-- The tokens of a stream, after those found before, latest first. -/
def tokens (hasher : Hasher) (found : List String) : TokenStream → Except Error (List String)
  | [] => .ok found.reverse
  | id :: rest =>
    match hasher.inverse.tokenOf? id with
    | some token => tokens hasher (token :: found) rest
    | none => .error (.unknownId id)

/-- The text that a stream stands for. -/
def unhash (hasher : Hasher) (stream : TokenStream) : Except Error String :=
  match hasher.tokens [] stream with
  | .ok tokens => .ok (" ".intercalate tokens)
  | .error e => .error e

/-- Hashes a text line by line. -/
def hashText (hasher : Hasher) (text : String) : String :=
  Text.unlines ((Text.lines text).map fun line => (hasher.hash line).text)

/-- Applies `convert` to each line, as long as the lines are text and convert,
after the lines made before, latest first. -/
def convertLines (convert : String → Except Error String) (made : List String) :
    List Document → Except Error (List String)
  | [] => .ok made.reverse
  | line :: rest =>
    match line.text? with
    | none => .error (.file .notText)
    | some text =>
      match convert text with
      | .ok line => convertLines convert (line :: made) rest
      | .error e => .error e

/-- The lines that a text file is hashed to. -/
def hashFile (hasher : Hasher) (bytes : ByteArray) : Except Error (List String) :=
  convertLines (fun line => .ok (hasher.hash line).text) [] (Document.ofBytes bytes).lines

/-- The line that a line of ids stands for. -/
def unhashLine (hasher : Hasher) (line : String) : Except Error String :=
  match TokenStream.parse line with
  | .ok stream => hasher.unhash stream
  | .error e => .error e

/-- The lines that a file of ids stands for. -/
def unhashFile (hasher : Hasher) (bytes : ByteArray) : Except Error (List String) :=
  convertLines hasher.unhashLine [] (Document.ofBytes bytes).lines

end Hasher

end TreeSeq
