import TreeSeq.Manifest
import TreeSeq.Stage

/-!
# Batches

A batch takes a stage over all files below a directory. A file that fails is
reported and does not stop the others.
-/

namespace TreeSeq.Batch

/-- How a batch is to be run. -/
structure Options where
  /-- The list of patterns of the files to take. -/
  pattern : String
  /-- How many files may be worked on at once; 0 leaves it open. -/
  threads : Nat
  /-- What to put after the stems of names instead of the suffix of the
  stage. -/
  suffix : Option String
  /-- Is a manifest to be written? -/
  manifest : Bool
  deriving DecidableEq, Repr, Inhabited

/-- What became of the files of a batch. -/
structure Report where
  /-- How many files succeeded. -/
  processed : Nat
  /-- The paths of the files that failed, each with the reason. -/
  failed : List (String × String)
  deriving DecidableEq, Repr, Inhabited

namespace Report

/-- The path and the reason of an entry that failed. -/
def failure? (entry : Manifest.Entry) : Option (String × String) :=
  match entry.status with
  | .ok => none
  | .failed => some (entry.input, entry.error.getD "")

/-- What the entries of a manifest report. -/
def ofEntries (entries : List Manifest.Entry) : Report :=
  ⟨entries.countP (·.status == .ok), entries.filterMap failure?⟩

end Report

/-- The name of the manifest among the output of a batch. -/
def manifestName : String := "manifest.jsonl"

/-- The name of the feature file among the output of a batch. -/
def featuresName : String := "features.json"

end TreeSeq.Batch
