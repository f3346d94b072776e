import TreeSeq.Settings

/-!
# Failures of commands

A failure is told by its message and, below that, by what it was caused by:
one cause stands alone, several are numbered.
-/

namespace TreeSeq.CommandLine

/-- Why a command fails. -/
inductive Failure where
  | plain (error : Error)
  /-- A file cannot be read as what it should be. -/
  | reading (what : String) (path : Path) (error : Error)
  /-- A file operation fails, and that alone is told. -/
  | bare (fault : FileFault)
  | settings (fault : SettingsFault)

namespace Failure

/-- An error of which a fault of a file operation alone is told. -/
def ofWriting : Error → Failure
  | .file fault => bare fault
  | error => plain error

/-- The message of a failure. -/
def message : Failure → String
  | plain error => error.message
  | reading what path _ => "failed to " ++ what ++ " " ++ path.text
  | bare fault => fault.message
  | settings fault => fault.message

/-- What a failure was caused by, the nearest cause first. -/
def causes : Failure → List String
  | plain error => error.cause?.toList
  | reading _ _ error => error.message :: error.cause?.toList
  | bare _ => []
  | settings (.unreadable _ fault) => [fault.message]
  | settings _ => []

/-- A text with the lines after the first indented. -/
def indented (width : Nat) (text : String) : String :=
  ("\n" ++ String.ofList (List.replicate width ' ')).intercalate (text.splitOn "\n")

/-- A number in the margin. -/
def margin (n : Nat) : String :=
  let digits := toString n
  String.ofList (List.replicate (5 - digits.length) ' ') ++ digits ++ ": "

/-- The lines that tell the causes. -/
def causeLines : List String → List String
  | [cause] => ["    " ++ indented 4 cause]
  | causes => causes.mapIdx fun i cause => margin i ++ indented 7 cause

/-- What is told about a failure. -/
def report (failure : Failure) : String :=
  let causes := failure.causes
  let head := "Error: " ++ failure.message ++ "\n"
  if causes.isEmpty then head
  else head ++ "\nCaused by:\n" ++ Text.unlines (causeLines causes)

end Failure

end TreeSeq.CommandLine
