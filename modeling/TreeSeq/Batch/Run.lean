import TreeSeq.Batch.Basic
import TreeSeq.Batch.Conversion
import TreeSeq.Batch.Source
import TreeSeq.Features.Json
import TreeSeq.Vocabulary.Basic

/-!
# Running batches

A batch finds its files, makes the output directory, converts the files in
order, and writes a manifest with an entry for each. Only a missing root, a bad
pattern, or an output directory or manifest that cannot be written stops it.
-/

namespace TreeSeq.Batch

variable {m : Type → Type} [Monad m] [Files m]

/-- Converts a file; yields the number of items. -/
def convertFile (convert : Conversion) (source target : Path) : ExceptT Error m Nat := do
  let product ← ofExcept (convert (← Files.load source))
  Files.save target product.text
  return product.items

/-- Converts a file and tells what became of it. -/
def convertSource (stage : Stage) (convert : Conversion) (output : Path) (suffix : String)
    (source : Source) : m Manifest.Entry := do
  let target := source.target output suffix
  match ← (convertFile convert source.path target).run with
  | .ok items => return .ok stage.word source.path.text target.text items
  | .error e => return .failed stage.word source.path.text e.message

/-- Runs a stage. -/
def run (stage : Stage) (convert : Conversion) (input output : Path) (options : Options) :
    ExceptT Error m Report := do
  let sources ← discover input options.pattern
  Files.ensureDirectory output
  let suffix := options.suffix.getD stage.suffix
  let entries ← ExceptT.lift (sources.mapM (convertSource stage convert output suffix))
  if options.manifest then
    Files.overwrite (output.join manifestName) (Manifest.save entries)
  return .ofEntries entries

/-- Makes sequences out of the trees of a directory. -/
def encode (input output : Path) (options : Options) : ExceptT Error m Report :=
  run .encode .encode input output options

/-- Makes trees out of the sequences of a directory. -/
def decode (input output : Path) (options : Options) : ExceptT Error m Report :=
  run .decode .decode input output options

/-- Hashes the texts of a directory. -/
def hash (vocabulary : Vocabulary) (input output : Path) (options : Options) :
    ExceptT Error m Report := do
  let hasher ← ofExcept (Hasher.ofVocabulary vocabulary)
  run .hash (.hash hasher) input output options

/-- Restores the texts of a directory from their hashes. -/
def unhash (vocabulary : Vocabulary) (input output : Path) (options : Options) :
    ExceptT Error m Report := do
  let hasher ← ofExcept (Hasher.ofVocabulary vocabulary)
  run .unhash (.unhash hasher) input output options

/-- Adds the features of a file, if it is a sequence. -/
def observeSource (columns : Columns) (source : Source) : m Columns := do
  match ← Files.read source.path with
  | .error _ => return columns
  | .ok bytes =>
    match Sequence.load bytes with
    | .error _ => return columns
    | .ok sequence => return columns.observe sequence

/-- Makes vectors out of the sequences of a directory, all over the same
columns: the existing ones and those that the files add. Yields the columns,
which are also saved. -/
def vectorize (existing : Columns) (input output : Path) (options : Options) :
    ExceptT Error m (Report × Columns) := do
  let sources ← discover input options.pattern
  let columns ← ExceptT.lift (sources.foldlM observeSource existing)
  let report ← run .vectorize (.vectorize columns) input output options
  Files.save (output.join featuresName) columns.save
  return (report, columns)

/-- Adds the words of some files to a vocabulary. -/
def addFiles (vocabulary : Vocabulary) (paths : List Path) : ExceptT Error m Vocabulary :=
  paths.foldlM (fun vocabulary path => do
    ofExcept (vocabulary.addFile (← Files.load path))) vocabulary

/-- Adds the words of the files of a directory to a vocabulary. -/
def addDirectory (vocabulary : Vocabulary) (input : Path) (pattern : String) :
    ExceptT Error m Vocabulary := do
  let sources ← discover input pattern
  addFiles vocabulary (sources.map (·.path))

end TreeSeq.Batch
