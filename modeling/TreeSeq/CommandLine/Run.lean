import TreeSeq.Batch.Run
import TreeSeq.CommandLine.Arguments
import TreeSeq.CommandLine.Failure
import TreeSeq.Sequence.Stats
import TreeSeq.Vocabulary.File

/-!
# Running commands

A command reads the settings, does its work on the files, and yields what it
tells on success and about single files that failed.
-/

namespace TreeSeq.CommandLine

/-- What a command tells. -/
structure Told where
  /-- What was done. -/
  done : String
  /-- Which files failed. -/
  warnings : String

/-- What a run of the program ends with. -/
structure Outcome where
  exitCode : Nat
  /-- What goes to standard output. -/
  output : String
  /-- What goes to standard error. -/
  errors : String
  deriving DecidableEq, Repr

/-- The name and version of the program. -/
def version : String := "astseq 0.1.0"

/-- How the program is called. -/
def usage : String := "Usage: astseq [--config PATH] [--verbose] COMMAND ..."

/-- The settings file that is used when none is given. -/
def usualSettings : Path := ⟨"astseq.toml"⟩

namespace Told

/-- One line about what was done. -/
def line (text : String) : Told :=
  ⟨text ++ "\n", ""⟩

/-- One line more about what was done. -/
def add (told : Told) (text : String) : Told :=
  { told with done := told.done ++ text ++ "\n" }

/-- What a stage tells about its files. -/
def ofReport (stage : Stage) (report : Batch.Report) : Told :=
  let head := "[astseq::" ++ stage.word ++ "] "
  ⟨head ++ "processed " ++ toString report.processed ++ " files, " ++
      toString report.failed.length ++ " failed\n",
    Text.unlines (report.failed.map fun entry => head ++ "failed " ++ entry.1 ++ ": " ++ entry.2)⟩

/-- A line about something that was made. -/
def made (what : String) (path : Path) : Told :=
  line ("[astseq] " ++ what ++ " -> " ++ path.text)

end Told

variable {m : Type → Type} [Monad m] [Files m] {α : Type}

/-- Runs a part of a command whose errors are told as they are. -/
def plainly (part : ExceptT Error m α) : ExceptT Failure m α :=
  part.adapt .plain

/-- Runs a part of a command that reads a file. -/
def reading (what : String) (path : Path) (part : ExceptT Error m α) : ExceptT Failure m α :=
  part.adapt (.reading what path)

/-- A value, or a failure. -/
def settle (value : Except SettingsFault α) : ExceptT Failure m α :=
  match value with
  | .ok value => return value
  | .error fault => throw (.settings fault)

/-- The settings in a file; nothing is set if there is no file. -/
def loadSettings (path : Path) : ExceptT Failure m Settings := do
  match ← plainly (Files.kindOf path) with
  | none => return .unset
  | some _ =>
    match ← ExceptT.lift (Files.read path) with
    | .ok bytes => settle (Settings.load path bytes)
    | .error fault => throw (.settings (.unreadable path fault))

/-- The sequence in a file. -/
def loadSequence (path : Path) : ExceptT Failure m Sequence :=
  reading "read sequence" path do
    ofExcept (Sequence.load (← Files.loadRecords path))

/-- The vocabulary in a file. -/
def loadVocabulary (path : Path) : ExceptT Error m Vocabulary := do
  ofExcept (Vocabulary.load (← Files.load path))

/-- The columns in a feature file. -/
def loadColumns (path : Path) : ExceptT Error m Columns := do
  ofExcept (Columns.load (← Files.loadRecords path))

/-- The vocabulary for a command, if it is given one or one is set. -/
def vocabularyFor (settings : Settings) (given : Option Path) : ExceptT Failure m Vocabulary := do
  let path ← settle (settings.vocabulary given)
  reading "load vocabulary" path (loadVocabulary path)

/-- Adds the words of files and directories to a vocabulary. -/
def addInputs (vocabulary : Vocabulary) (inputs : List Path) (pattern : String) :
    ExceptT Failure m Vocabulary :=
  inputs.foldlM (fun vocabulary input => do
    match ← plainly (Files.kindOf input) with
    | some .directory => plainly (Batch.addDirectory vocabulary input pattern)
    | some .file => plainly (Batch.addFiles vocabulary [input])
    | none => throw (.bare (.missingInput input.text))) vocabulary

/-- Makes vectors out of a sequence, and has the columns grow. -/
def vectorize (input output : Path) (features : Option Path) (singlePass : Bool) :
    ExceptT Failure m Told := do
  let sequence ← loadSequence input
  let existing ← match features with
    | none => pure .empty
    | some path => plainly do
      if (← Files.kindOf path).isSome then loadColumns path else return .empty
  let grown := existing.observe sequence
  let (vectors, columns) :=
    if singlePass then existing.singlePass sequence else (grown.vectors sequence, grown)
  ExceptT.adapt .ofWriting (Files.save output (Text.unlines (vectors.map vectorText)))
  match features with
  | none => pure ()
  | some path => plainly (Files.save path columns.save)
  return .made (toString vectors.length ++ " vectors (" ++ toString columns.width ++ " columns)")
    output

/-- Carries out a command. -/
def execute (settings : Settings) : Command → ExceptT Failure m Told
  | .encode input output base => do
    let tree ← reading "read AST" input do ofExcept (Node.load (← Files.load input))
    plainly do
      let sequence ← ofExcept (tree.encode base)
      Files.save output sequence.save
      return .made ("encoded " ++ toString sequence.length ++ " nodes") output
  | .decode input output => do
    let sequence ← loadSequence input
    plainly do
      let tree ← ofExcept sequence.decode
      Files.save output tree.save
      return .made ("decoded " ++ toString tree.count ++ " nodes") output
  | .encodeAll input output flags =>
    plainly do
      return .ofReport .encode (← Batch.encode input output (settings.options .encode flags))
  | .decodeAll input output flags =>
    plainly do
      return .ofReport .decode (← Batch.decode input output (settings.options .decode flags))
  | .vocabulary inputs output existing pattern => do
    let start ← match existing with
      | some path => plainly (loadVocabulary path)
      | none => pure .empty
    let vocabulary ← addInputs start inputs (settings.pattern .vocabulary pattern)
    plainly do
      Files.save output (← ofExcept vocabulary.save)
      return .made ("vocabulary of " ++ toString vocabulary.size ++ " tokens") output
  | .hash input vocabulary output => do
    let vocabulary ← vocabularyFor settings vocabulary
    plainly do
      let hasher ← ofExcept (Hasher.ofVocabulary vocabulary)
      let count ← Batch.convertFile (.hash hasher) input output
      return .made ("hashed " ++ toString count ++ " lines") output
  | .unhash input vocabulary output => do
    let vocabulary ← vocabularyFor settings vocabulary
    plainly do
      let hasher ← ofExcept (Hasher.ofVocabulary vocabulary)
      let count ← Batch.convertFile (.unhash hasher) input output
      return .made ("unhashed " ++ toString count ++ " lines") output
  | .hashAll input vocabulary output flags => do
    let vocabulary ← vocabularyFor settings vocabulary
    plainly do
      return .ofReport .hash (← Batch.hash vocabulary input output (settings.options .hash flags))
  | .unhashAll input vocabulary output flags => do
    let vocabulary ← vocabularyFor settings vocabulary
    plainly do
      return .ofReport .unhash
        (← Batch.unhash vocabulary input output (settings.options .unhash flags))
  | .vectorize input output features singlePass => vectorize input output features singlePass
  | .vectorizeAll input output features flags =>
    plainly do
      let existing ← match features with
        | some path => loadColumns path
        | none => pure .empty
      let (report, columns) ←
        Batch.vectorize existing input output (settings.options .vectorize flags)
      return (Told.ofReport .vectorize report).add
        ("[astseq] " ++ toString columns.width ++ " feature columns")
  | .stats input => do
    let sequence ← loadSequence input
    return .line (Stats.measure sequence).toJson.pretty

/-- Runs a command with its settings. -/
def invoke (invocation : Invocation) : ExceptT Failure m Told := do
  execute (← loadSettings (invocation.settings.getD usualSettings)) invocation.command

/-- Runs the program. -/
def run (arguments : List String) : m Outcome := do
  match parse arguments with
  | .misuse => return ⟨2, "", usage ++ "\n"⟩
  | .version => return ⟨0, version ++ "\n", ""⟩
  | .run invocation =>
    match ← (invoke invocation).run with
    | .ok told => return ⟨0, told.done, told.warnings⟩
    | .error failure => return ⟨1, "", failure.report⟩

end TreeSeq.CommandLine
