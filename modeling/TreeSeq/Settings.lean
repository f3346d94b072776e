import TreeSeq.Batch.Basic
import TreeSeq.Error
import TreeSeq.Fields
import TreeSeq.Path
import TreeSeq.Stage
import TreeSeq.Toml.Parser

/-!
# Settings

Settings come from a TOML file, which may leave out any of them. What a command
is given goes before the settings, and they go before what holds otherwise.

The sections `batch`, `encode`, `decode`, `vocab`, `hash`, `unhash` and
`vectorize` are tables, or arrays of the values of all their fields in order; a
date or time stands for an empty section. Other names are passed over.
-/

namespace TreeSeq

/-- What may be set for a stage. -/
structure StageSettings where
  pattern : Option String
  suffix : Option String
  deriving DecidableEq, Repr, Inhabited

/-- What may be set for batches. -/
structure BatchSettings where
  threads : Option Nat
  manifest : Option Bool
  deriving DecidableEq, Repr, Inhabited

/-- What may be set. -/
structure Settings where
  batch : BatchSettings
  stage : Stage → StageSettings
  /-- The vocabulary for commands that are given none. -/
  vocabularyFile : Option Path

/-- What a batch command is given. -/
structure BatchFlags where
  pattern : Option String
  threads : Option Nat
  suffix : Option String
  /-- Is no manifest to be written? -/
  noManifest : Bool
  deriving DecidableEq, Repr, Inhabited

/-- Why there are no settings, or not the one that is needed. -/
inductive SettingsFault where
  /-- The file cannot be read. -/
  | unreadable (path : Path) (fault : FileFault)
  /-- The file holds no settings. -/
  | invalid
  /-- No vocabulary is given. -/
  | noVocabulary
  deriving DecidableEq

namespace SettingsFault

/-- The wording of the fault. -/
def message : SettingsFault → String
  | unreadable path _ => "failed to read config " ++ path.text
  | invalid => "invalid config: the file is not a TOML document with these settings"
  | noVocabulary => "no vocabulary given: pass --vocab or set vocab_file in the config"

end SettingsFault

namespace Settings

/-- Nothing is set. -/
def unset : Settings :=
  ⟨⟨none, none⟩, fun _ => ⟨none, none⟩, none⟩

instance : Inhabited Settings := ⟨unset⟩

/-! ## Reading -/

section

open Toml (Value)

/-- A text. -/
def text? : Value → Option String
  | .text s => some s
  | _ => none

/-- A natural number. -/
def natural? : Value → Option Nat
  | .integer n => if n < 0 then none else some n.toNat
  | _ => none

/-- A truth value. -/
def truth? : Value → Option Bool
  | .bool b => some b
  | _ => none

/-- The value of a field, if it is given, that `read` must accept then. -/
def optional? {α : Type} (read : Value → Option α) : Option Value → Option (Option α)
  | some value => (read value).map some
  | none => some none

/-- The field of a section that has this name, or this place in an array. -/
def field? {α : Type} (read : Value → Option α) (name : String) (place : Nat) :
    Option Value → Option (Option α)
  | some (.table fields) => optional? read (Fields.get? fields name)
  | some (.array items) => items[place]? >>= fun value => (read value).map some
  | some (.moment _) | none => some none
  | some _ => none

/-- The settings for batches. -/
def ofBatchSection? (found : Option Value) : Option BatchSettings := do
  return ⟨← field? natural? "threads" 0 found, ← field? truth? "manifest" 1 found⟩

/-- The settings for a stage. -/
def ofStageSection? (found : Option Value) : Option StageSettings := do
  return ⟨← field? text? "pattern" 0 found, ← field? text? "out_ext" 1 found⟩

/-- The settings in the fields of a document. -/
def ofFields? (fields : List (String × Value)) : Option Settings := do
  let stage (s : Stage) := ofStageSection? (Fields.get? fields s.word)
  let batch ← ofBatchSection? (Fields.get? fields "batch")
  let encode ← stage .encode
  let decode ← stage .decode
  let vocabulary ← stage .vocabulary
  let hash ← stage .hash
  let unhash ← stage .unhash
  let vectorize ← stage .vectorize
  let file ← optional? text? (Fields.get? fields "vocab_file")
  let stages : Stage → StageSettings
    | .encode => encode
    | .decode => decode
    | .vocabulary => vocabulary
    | .hash => hash
    | .unhash => unhash
    | .vectorize => vectorize
  return ⟨batch, stages, file.map Path.mk⟩

end

/-- Reads the text of a settings file. -/
def parse (text : String) : Except SettingsFault Settings :=
  match Toml.parse text >>= ofFields? with
  | some settings => .ok settings
  | none => .error .invalid

/-- Reads the settings file at a path. -/
def load (path : Path) (bytes : ByteArray) : Except SettingsFault Settings :=
  match String.fromUTF8? bytes with
  | some text => parse text
  | none => .error (.unreadable path .notText)

/-! ## What holds -/

/-- The pattern for a stage. -/
def pattern (settings : Settings) (stage : Stage) (given : Option String) : String :=
  (given <|> (settings.stage stage).pattern).getD stage.pattern

/-- How a batch is to be run. -/
def options (settings : Settings) (stage : Stage) (flags : BatchFlags) : Batch.Options where
  pattern := settings.pattern stage flags.pattern
  threads := (flags.threads <|> settings.batch.threads).getD 0
  suffix := flags.suffix <|> (settings.stage stage).suffix
  manifest := !flags.noManifest && settings.batch.manifest.getD true

/-- The vocabulary file. -/
def vocabulary (settings : Settings) (given : Option Path) : Except SettingsFault Path :=
  match given <|> settings.vocabularyFile with
  | some path => .ok path
  | none => .error .noVocabulary

end Settings

end TreeSeq
