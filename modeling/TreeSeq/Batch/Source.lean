import TreeSeq.Files
import TreeSeq.Glob

/-!
# The files of a batch

A batch takes the files at or below its root that the patterns select, in
ascending order of the names on the way down. What is made of a file gets the
same place below the output directory, and a name of the same stem.
-/

namespace TreeSeq.Batch

/-- A file of a batch. -/
structure Source where
  path : Path
  /-- The names on the way down from the root; the name of the file itself, if
  it is the root. -/
  names : List String
  deriving DecidableEq, Inhabited

namespace Source

/-- The file with these names on the way down from the root. -/
def ofNames (root : Path) (names : List String) : Source :=
  if names.isEmpty then ⟨root, [root.fileName]⟩ else ⟨root.joinAll names, names⟩

/-- Does a file come before another? -/
def before (a b : Source) : Bool :=
  !decide (b.names < a.names)

/-- The ends of names that are no part of the stem, the longest first. -/
def knownSuffixes : List String :=
  [".ast.json", ".seq.json", ".json"]

/-- The part of a name before a suffix. -/
def cut? (name suffix : String) : Option String :=
  if suffix.toList.isSuffixOf name.toList then
    some (String.ofList (name.toList.take (name.length - suffix.length)))
  else none

/-- The stem of a name: what stands before a known suffix, or before the last
dot. -/
def stem (name : String) : String :=
  (knownSuffixes.findSome? (cut? name)).getD (Path.stem name)

/-- The path of what is made of a file. -/
def target (source : Source) (output : Path) (suffix : String) : Path :=
  output.joinAll (source.names.dropLast ++ [stem (source.names.getLastD "") ++ suffix])

end Source

variable {m : Type → Type} [Monad m] [Files m]

/-- The files at or below a root that a list of patterns selects, in order. -/
def discover (root : Path) (pattern : String) : ExceptT Error m (List Source) := do
  if (← Files.kindOf root).isNone then
    throw (.file (.missingInput root.text))
  match Glob.parseList pattern with
  | .error fault => throw (.pattern fault)
  | .ok patterns =>
    let found ← ExceptT.lift (Files.filesBelow root)
    let sources := (found.map (Source.ofNames root)).filter (Glob.selects patterns ·.names)
    return sources.mergeSort Source.before

end TreeSeq.Batch
