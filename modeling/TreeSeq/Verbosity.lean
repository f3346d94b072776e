import TreeSeq.Text.Blank
import TreeSeq.Text.Lowercase

/-!
# Verbosity

The variable `ASTSEQ_VERBOSE` asks for more log events.
-/

namespace TreeSeq.Verbosity

/-- The words that ask for more, in lower case. -/
def words : List String :=
  ["1", "true", "yes", "on"]

/-- Does the value of the variable ask for more? Blanks around it and letter
case do not count. -/
def isVerbose (value : Option String) : Bool :=
  value.any fun text => words.contains (Text.lowercase (Text.trim text))

end TreeSeq.Verbosity
