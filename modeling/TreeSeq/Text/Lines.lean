/-!
# Lines

A line ends at a line feed, which is dropped together with one carriage return
right before it. Text after the last line feed is a line of its own; a text
that ends in a line feed has no line after it.
-/

namespace TreeSeq.Text

/-- Drops one `last` from the end, if the list ends in it. -/
def dropLastIf {α : Type} [BEq α] (last : α) (line : List α) : List α :=
  if line.getLast? == some last then line.dropLast else line

/-- The lines of a list of units, for the units that stand for a line feed and
a carriage return. -/
def linesOf {α : Type} [BEq α] (feed carriage : α) (text : List α) : List (List α) :=
  let pieces := text.splitOn feed
  let remainder := pieces.getLastD []
  pieces.dropLast.map (dropLastIf carriage) ++ if remainder.isEmpty then [] else [remainder]

/-- The lines of a text. -/
def lines (text : String) : List String :=
  (linesOf '\n' '\r' text.toList).map String.ofList

/-- Texts written as lines, each ended by a line feed. -/
def unlines (texts : List String) : String :=
  texts.foldl (fun out text => (out ++ text).push '\n') ""

/-- Texts with line feeds between them, and one at the end unless all of this
is empty. -/
def joinLines (texts : List String) : String :=
  let body := "\n".intercalate texts
  if body.isEmpty then body else body.push '\n'

end TreeSeq.Text
