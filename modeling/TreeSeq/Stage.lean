/-!
# Stages

A stage makes new files out of others. `vocabulary` makes one file out of many,
the others one out of each.
-/

namespace TreeSeq

/-- What is made out of files. -/
inductive Stage where
  /-- Sequences out of trees. -/
  | encode
  /-- Trees out of sequences. -/
  | decode
  /-- A vocabulary out of texts. -/
  | vocabulary
  /-- Token streams out of texts. -/
  | hash
  /-- Texts out of token streams. -/
  | unhash
  /-- Feature vectors out of sequences. -/
  | vectorize
  deriving DecidableEq, Repr, Inhabited

namespace Stage

/-- The word for a stage. -/
def word : Stage → String
  | encode => "encode"
  | decode => "decode"
  | vocabulary => "vocab"
  | hash => "hash"
  | unhash => "unhash"
  | vectorize => "vectorize"

/-- The pattern of the files that a stage takes. -/
def pattern : Stage → String
  | encode => "*.ast.json"
  | decode => "*.seq.json"
  | vocabulary => "*"
  | hash => "*"
  | unhash => "*.hash"
  | vectorize => "*.seq.json"

/-- What a stage puts after the stem of a name to name the file that it makes.
The name of a vocabulary is given. -/
def suffix : Stage → String
  | encode => ".seq.json"
  | decode => ".ast.json"
  | vocabulary => ""
  | hash => ".hash"
  | unhash => ".unhash"
  | vectorize => ".vec"

end Stage

end TreeSeq
