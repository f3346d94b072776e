import TreeSeq.CommandLine.Run

/-!
# The program

Runs the command that the arguments name on the files of the system.
-/

namespace TreeSeq

/-- The number of a system error, which may be given negated. -/
def systemErrorNumber (code : UInt32) : Nat :=
  code.toInt32.toInt.natAbs

/-- What a system error says about a file. -/
def FileFault.ofSystem (e : IO.Error) : FileFault :=
  match e with
  | .noFileOrDirectory .. => .notFound
  | .alreadyExists .. => .alreadyExists
  | .inappropriateType _ code _ | .resourceExhausted _ code _ =>
    match systemErrorNumber code with
    | 20 => .notADirectory
    | 21 => .isADirectory
    | _ => .other (toString e)
  | _ => .other (toString e)

/-- Runs a file operation of the system. -/
def tryFile {α : Type} (operation : IO α) : IO (Except FileFault α) := do
  try
    return .ok (← operation)
  catch e =>
    return .error (.ofSystem e)

/-- What a path of the system leads to, if it leads to anything. -/
def systemKind? (path : String) : IO (Option FileKind) := do
  if path.isEmpty then
    return none
  try
    match (← (← IO.FS.realPath path).metadata).type with
    | .dir => return some .directory
    | _ => return some .file
  catch _ => return none

/-- The files below a directory of the system, `above` being the names on the
way down to it, latest first. Links are passed over. -/
partial def systemFilesIn (directory : String) (above : List String) :
    IO (List (List String)) := do
  try
    let entries ← (← IO.FS.realPath directory).readDir
    let found ← entries.toList.mapM fun entry => do
      let names := entry.fileName :: above
      match (← entry.path.symlinkMetadata).type with
      | .file => return [names.reverse]
      | .dir => systemFilesIn entry.path.toString names
      | _ => return []
    return found.flatten
  catch _ => return []

/-- The files at or below a path of the system. -/
def systemFilesBelow (path : String) : IO (List (List String)) := do
  match ← systemKind? path with
  | some .file => return [[]]
  | some .directory => systemFilesIn path []
  | none => return []

/-- Makes a directory of the system, unless it is there. -/
def makeSystemDirectory (path : Path) : IO Unit := do
  try
    IO.FS.createDir path.text
  catch e =>
    unless (← systemKind? path.text) == some .directory do
      throw e

/-- Makes a directory of the system with all directories above it, as far as
they are missing. -/
partial def makeSystemDirectories (path : Path) : IO Unit := do
  unless path.text.isEmpty do
    try
      makeSystemDirectory path
    catch e =>
      match e with
      | .noFileOrDirectory .. =>
        makeSystemDirectories path.parent
        makeSystemDirectory path
      | _ => throw e

instance : Files IO where
  kind? path := systemKind? path.text
  filesBelow path := systemFilesBelow path.text
  read path := tryFile do
    if (← systemKind? path.text) == some .directory then
      throw (.inappropriateType none 21 "Is a directory")
    IO.FS.readBinFile path.text
  write path bytes := tryFile (IO.FS.writeBinFile path.text bytes)
  makeDirectories path := tryFile (makeSystemDirectories path)

end TreeSeq

/-- Runs the program with its arguments. -/
def main (arguments : List String) : IO UInt32 := do
  let outcome ← (TreeSeq.CommandLine.run arguments : IO TreeSeq.CommandLine.Outcome)
  IO.print outcome.output
  IO.eprint outcome.errors
  return outcome.exitCode.toUInt32
