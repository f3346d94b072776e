import TreeSeq.Batch.Run

/-!
# Batches on several threads

The files of a batch are found on one thread, but as many threads as the
options ask for convert them, and what is told of them is collected in the
order in which they were found. Who converts which file when is up to a
scheduler; here it brings the files into an order and each is converted in one
go. A single thread takes them as they were found, which is how a `Task` is run
where nothing is said of threads.
-/

namespace TreeSeq.Batch

variable {m : Type → Type} [Monad m] [Files m]

/-! ## Schedules -/

/-- Brings the files of a batch into the order in which a number of threads
convert them. Without a number there are as many threads as the machine has. -/
structure Scheduler where
  arrange : Nat → List Source → List Source
  /-- Each file is converted once. -/
  perm (threads : Nat) (sources : List Source) : (arrange threads sources).Perm sources
  /-- One thread converts one file after the other. -/
  alone (sources : List Source) : arrange 1 sources = sources

/-- Takes the files as they come, whatever the number of threads. -/
def Scheduler.inOrder : Scheduler :=
  ⟨fun _ sources => sources, fun _ _ => .refl _, fun _ => rfl⟩

instance : Inhabited Scheduler := ⟨.inOrder⟩

/-- Converts files in some order, and tells of them in the order in which they
were found. -/
def convertInOrder (stage : Stage) (convert : Conversion) (output : Path) (suffix : String)
    (sources order : List Source) : m (List Manifest.Entry) := do
  let told ← order.mapM (convertSource stage convert output suffix)
  return sources.filterMap (Fields.get? (order.zip told))

/-- Runs a stage that converts the files in the order that `arrange` brings them
into. -/
def runInOrder (arrange : List Source → List Source) (stage : Stage) (convert : Conversion)
    (input output : Path) (options : Options) : ExceptT Error m Report := do
  let sources ← discover input options.pattern
  Files.ensureDirectory output
  let suffix := options.suffix.getD stage.suffix
  let entries ← ExceptT.lift
    (convertInOrder stage convert output suffix sources (arrange sources))
  if options.manifest then
    Files.overwrite (output.join manifestName) (Manifest.save entries)
  return .ofEntries entries

/-! ## Tasks -/

/-- A batch that makes a file out of each file, with what it needs for that. -/
inductive Task where
  | encode
  | decode
  | hash (vocabulary : Vocabulary)
  | unhash (vocabulary : Vocabulary)
  | vectorize (existing : Columns)

namespace Task

/-- The stage that a batch takes over the files. -/
def stage : Task → Stage
  | encode => .encode
  | decode => .decode
  | hash _ => .hash
  | unhash _ => .unhash
  | vectorize _ => .vectorize

/-- Runs a batch, for its report. -/
def run (task : Task) (input output : Path) (options : Options) : ExceptT Error m Report :=
  match task with
  | encode => Batch.encode input output options
  | decode => Batch.decode input output options
  | hash vocabulary => Batch.hash vocabulary input output options
  | unhash vocabulary => Batch.unhash vocabulary input output options
  | vectorize existing => do
    let (report, _) ← Batch.vectorize existing input output options
    return report

/-- Runs a batch whose files are converted by `runStage`, for its report. -/
def runBy (runStage : Stage → Conversion → ExceptT Error m Report) (task : Task)
    (input output : Path) (options : Options) : ExceptT Error m Report :=
  match task with
  | encode => runStage .encode .encode
  | decode => runStage .decode .decode
  | hash vocabulary => do
    let hasher ← ofExcept (Hasher.ofVocabulary vocabulary)
    runStage .hash (.hash hasher)
  | unhash vocabulary => do
    let hasher ← ofExcept (Hasher.ofVocabulary vocabulary)
    runStage .unhash (.unhash hasher)
  | vectorize existing => do
    let sources ← discover input options.pattern
    let columns ← ExceptT.lift (sources.foldlM observeSource existing)
    let report ← runStage .vectorize (.vectorize columns)
    Files.save (output.join featuresName) columns.save
    return report

/-- Runs a batch on as many threads as the options ask for, for its report. -/
def runOn (scheduler : Scheduler) (task : Task) (input output : Path) (options : Options) :
    ExceptT Error m Report :=
  task.runBy (fun stage convert =>
    runInOrder (scheduler.arrange options.threads) stage convert input output options)
    input output options

end Task

end TreeSeq.Batch
