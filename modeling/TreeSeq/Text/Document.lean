import TreeSeq.Text.Lines

/-!
# Documents: file contents as characters

A `Document` is what a file holds, read as UTF-8: its characters in order,
with a `stray` in place of each byte that belongs to no character. A document
is a text exactly when nothing in it is stray.
-/

namespace TreeSeq

/-- A unit of a document. -/
inductive Symbol where
  /-- A character. -/
  | char (c : Char)
  /-- A byte that belongs to no character. -/
  | stray
  deriving DecidableEq, Inhabited

/-- What a file holds, as characters and stray bytes. -/
abbrev Document := List Symbol

namespace Symbol

/-- The character, if it is one. -/
def char? : Symbol → Option Char
  | char c => some c
  | stray => none

/-- How many bytes the unit takes. -/
def byteSize : Symbol → Nat
  | char c => c.utf8Size
  | stray => 1

end Symbol

namespace Document

/-- A text as a document. -/
def ofText (text : String) : Document :=
  text.toList.map .char

/-- The units from byte `i` on, put before `seen`, latest first. -/
def scan (bytes : ByteArray) (i : Nat) (seen : Document) : Document :=
  if _ : i < bytes.size then
    match bytes.utf8DecodeChar? i with
    | some c => scan bytes (i + c.utf8Size) (.char c :: seen)
    | none => scan bytes (i + 1) (.stray :: seen)
  else
    seen.reverse
termination_by bytes.size - i
decreasing_by
  · have := c.utf8Size_pos; omega
  · omega

/-- The document that bytes hold. -/
def ofBytes (bytes : ByteArray) : Document :=
  match String.fromUTF8? bytes with
  | some text => ofText text
  | none => scan bytes 0 []

/-- The text of a document in which nothing is stray. -/
def text? (document : Document) : Option String :=
  (document.mapM Symbol.char?).map String.ofList

/-- The lines of a document. -/
def lines (document : Document) : List Document :=
  Text.linesOf (.char '\n') (.char '\r') document

end Document

end TreeSeq
