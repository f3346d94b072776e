import TreeSeq.Error
import TreeSeq.Json.Record
import TreeSeq.Text.Blank

/-!
# Manifests

A manifest tells what became of each file of a batch, one JSON object a line.
An entry that failed has an error and neither an output nor items. Blank lines
are passed over on reading; a single line that is no entry makes the whole
manifest unreadable.
-/

namespace TreeSeq.Manifest

/-- What became of a file. -/
inductive Status where
  | ok
  | failed
  deriving DecidableEq, Repr, Inhabited

/-- The word for a status. -/
def Status.word : Status → String
  | ok => "ok"
  | failed => "failed"

/-- The status that a word stands for. -/
def Status.ofWord? : String → Option Status
  | "ok" => some ok
  | "failed" => some failed
  | _ => none

/-- What became of one input. -/
structure Entry where
  stage : String
  input : String
  output : Option String
  status : Status
  items : Nat
  error : Option String
  deriving DecidableEq, Inhabited

namespace Entry

open Json (Member Reader)

/-- The entry of an input that gave `items` items. -/
def ok (stage input output : String) (items : Nat) : Entry :=
  ⟨stage, input, some output, .ok, items, none⟩

/-- The entry of an input that failed. -/
def failed (stage input error : String) : Entry :=
  ⟨stage, input, none, .failed, 0, some error⟩

/-- An entry as JSON. -/
def toJson (entry : Entry) : Json.Value :=
  .object ([("stage", .string entry.stage), ("input", .string entry.input),
    ("output", .ofText? entry.output), ("status", .string entry.status.word),
    ("items", .ofNat entry.items)] ++
    match entry.error with
    | some error => [("error", .string error)]
    | none => [])

/-- An entry of which some fields are read. -/
structure Draft where
  stage : Option String
  input : Option String
  output : Option (Option String)
  status : Option Status
  items : Option Nat
  error : Option (Option String)

namespace Draft

/-- Nothing is read yet. -/
def empty : Draft :=
  ⟨none, none, none, none, none, none⟩

/-- The entry, if its stage, its input and its status are there. -/
def finish (draft : Draft) : Option Entry := do
  let stage ← draft.stage
  let input ← draft.input
  let status ← draft.status
  return ⟨stage, input, draft.output.join, status, draft.items.getD 0, draft.error.join⟩

end Draft

/-- The word for a status, as a string. -/
def statusWord : Reader Status := do
  match Status.ofWord? (← Reader.string) with
  | some status => return status
  | none => Reader.fail .wrongShape

/-- A status: its word, or an object with null under its word. -/
def statusReader : Reader Status := do
  match ← Reader.token with
  | none => Reader.fail .truncated
  | some (.char '"') => statusWord
  | some (.char '{') => do
    Reader.skip
    let status ← statusWord
    Reader.expect ':'
    Reader.null
    Reader.expect '}'
    return status
  | _ => Reader.fail .illFormed

/-- The fields of an entry. -/
def members : List (Member Draft) :=
  [⟨"stage", false, (·.stage.isSome),
      fun draft => return { draft with stage := some (← Reader.string) }⟩,
    ⟨"input", false, (·.input.isSome),
      fun draft => return { draft with input := some (← Reader.string) }⟩,
    ⟨"output", false, (·.output.isSome),
      fun draft => return { draft with output := some (← Reader.nullable Reader.string) }⟩,
    ⟨"status", false, (·.status.isSome),
      fun draft => return { draft with status := some (← statusReader) }⟩,
    ⟨"items", true, (·.items.isSome),
      fun draft => return { draft with items := some (← Reader.natural) }⟩,
    ⟨"error", true, (·.error.isSome),
      fun draft => return { draft with error := some (← Reader.nullable Reader.string) }⟩]

/-- Reads an entry. -/
def reader : Reader Entry :=
  Reader.record members .empty Draft.finish

end Entry

/-- The text of a manifest: an entry a line. -/
def save (entries : List Entry) : String :=
  Text.unlines (entries.map fun entry => entry.toJson.compact)

/-- Reads the entries of some lines, after those read before, latest first. -/
def readLines (read : List Entry) : List Document → Except Error (List Entry)
  | [] => .ok read.reverse
  | line :: rest =>
    match line.text? with
    | none => .error (.file .notText)
    | some text =>
      if Text.allBlank text then readLines read rest
      else match Entry.reader.document line with
        | .ok entry => readLines (entry :: read) rest
        | .error fault => .error (.json fault)

/-- Reads a manifest. -/
def load (bytes : ByteArray) : Except Error (List Entry) :=
  readLines [] (Document.ofBytes bytes).lines

end TreeSeq.Manifest
