import TreeSeq.Error
import TreeSeq.Text.Blank
import TreeSeq.Text.Lowercase

/-!
# File patterns

A pattern is a list of tokens. A question mark stands for any character, an
asterisk for any characters, a class in brackets for one character that it
lists or does not list, and two asterisks, which stand between slashes, for any
directories. Slashes are characters like others otherwise.

Lists of patterns stand with commas between them. Letter case does not count,
and a pattern without a slash may match at any depth. A list without any
pattern matches everything.
-/

namespace TreeSeq

namespace Glob

/-- A part of a pattern. -/
inductive Token where
  /-- This character. -/
  | char (c : Char)
  /-- Any character. -/
  | one
  /-- Any characters. -/
  | many
  /-- Nothing, or all up to some slash, or all there is. -/
  | directories
  /-- A character between some bounds, or, if negated, one between none. -/
  | among (negated : Bool) (ranges : List (Char × Char))
  deriving DecidableEq, Repr

/-- Parts that match in order. -/
abbrev Pattern := List Token

/-! ## Matching -/

/-- Does a character lie between some bounds? -/
def inSome (ranges : List (Char × Char)) (c : Char) : Bool :=
  ranges.any fun range => range.1 ≤ c && c ≤ range.2

/-- Does a test hold of the text or of what is left of it after some
characters? -/
def afterSome (test : List Char → Bool) : List Char → Bool
  | [] => test []
  | c :: rest => test (c :: rest) || afterSome test rest

/-- Does a test hold of what is left of the text after some slash, or of
nothing? -/
def afterSlash (test : List Char → Bool) : List Char → Bool
  | [] => test []
  | c :: rest => (c == '/' && test rest) || afterSlash test rest

/-- Does a pattern match a text? -/
def Pattern.matchesText : Pattern → List Char → Bool
  | [], text => text.isEmpty
  | .many :: rest, text => afterSome (matchesText rest) text
  | .directories :: rest, text => matchesText rest text || afterSlash (matchesText rest) text
  | .char c :: rest, found :: text => found == c && matchesText rest text
  | .one :: rest, _ :: text => matchesText rest text
  | .among negated ranges :: rest, found :: text =>
    inSome ranges found != negated && matchesText rest text
  | _ :: _, [] => false

/-! ## Reading -/

/-- The bounds that the characters of a class give: `a-z` gives two, any other
character itself. -/
def ranges : List Char → List (Char × Char)
  | low :: '-' :: high :: rest => (low, high) :: ranges rest
  | c :: rest => (c, c) :: ranges rest
  | [] => []

/-- Where the reading of a pattern stands. -/
inductive Position where
  /-- After this character, or at the start. -/
  | after (previous : Option Char)
  /-- In a class with these characters so far, latest first. -/
  | inClass (negated : Bool) (seen : List Char)

/-- May two asterisks stand after this character? -/
def startsPart (previous : Option Char) : Bool :=
  previous == none || previous == some '/'

/-- Reads a pattern; `read` holds the tokens so far, latest first. -/
def parseFrom (read : List Token) : Position → List Char → Except PatternFault Pattern
  | .after _, [] => .ok read.reverse
  | .after _, '?' :: rest => parseFrom (.one :: read) (.after (some '?')) rest
  | .after _, '*' :: '*' :: '*' :: _ => .error .tooManyStars
  | .after previous, '*' :: '*' :: '/' :: rest =>
    if startsPart previous then parseFrom (.directories :: read) (.after (some '/')) rest
    else .error .mixedStars
  | .after previous, ['*', '*'] =>
    if startsPart previous then .ok (.directories :: read).reverse else .error .mixedStars
  | .after _, '*' :: '*' :: _ => .error .mixedStars
  | .after _, '*' :: rest => parseFrom (.many :: read) (.after (some '*')) rest
  | .after _, '[' :: '!' :: c :: rest => parseFrom read (.inClass true [c]) rest
  | .after _, ['[', '!'] => .error .openClass
  | .after _, '[' :: c :: rest => parseFrom read (.inClass false [c]) rest
  | .after _, ['['] => .error .openClass
  | .after _, c :: rest => parseFrom (.char c :: read) (.after (some c)) rest
  | .inClass _ _, [] => .error .openClass
  | .inClass negated seen, ']' :: rest =>
    parseFrom (.among negated (ranges seen.reverse) :: read) (.after (some ']')) rest
  | .inClass negated seen, c :: rest => parseFrom read (.inClass negated (c :: seen)) rest

/-- Reads a pattern. -/
def parse (text : String) : Except PatternFault Pattern :=
  parseFrom [] (.after none) text.toList

/-- One pattern of a list, as it is read. -/
def normalized (text : String) : String :=
  if text.toList.contains '/' then Text.lowercase text else "**/" ++ Text.lowercase text

/-- Reads a list of patterns. -/
def parseList (text : String) : Except PatternFault (List Pattern) :=
  let items := (text.toList.splitOn ',').map fun item => Text.trim (String.ofList item)
  (items.filter (!·.isEmpty)).mapM fun item => parse (normalized item)

/-- The text that patterns are matched against, for the names on the way down
to a file. -/
def subject (names : List String) : List Char :=
  (Text.lowercase (("/".intercalate names).map fun c => if c == '\\' then '/' else c)).toList

/-- Do the patterns select the file with these names on the way down? -/
def selects (patterns : List Pattern) (names : List String) : Bool :=
  patterns.isEmpty || patterns.any (·.matchesText (subject names))

end Glob

end TreeSeq
