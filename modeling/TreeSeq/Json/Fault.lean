/-!
# What can be wrong with a JSON document
-/

namespace TreeSeq.Json

/-- Why a document is not read. -/
inductive Fault where
  /-- The document ends inside a value, or before one. -/
  | truncated
  /-- The document is not JSON, or its numbers, nesting or strings go beyond
  what is read. -/
  | illFormed
  /-- The document is JSON of another shape than asked for. -/
  | wrongShape
  /-- The document could not be fetched. -/
  | unreadable
  deriving DecidableEq, Repr, Inhabited

/-- The kind of fault in one word. -/
def Fault.word : Fault → String
  | truncated => "eof"
  | illFormed => "syntax"
  | wrongShape => "data"
  | unreadable => "io"

end TreeSeq.Json
