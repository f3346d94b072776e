import TreeSeq.Error
import TreeSeq.Path

/-!
# Files

`Files m` says what programs in `m` may do with files. A program that fails
stops with an `Error`, and what it did to the files before remains done.
-/

namespace TreeSeq

/-- What a path leads to. -/
inductive FileKind where
  | file
  | directory
  deriving DecidableEq, Repr, Inhabited

/-- File operations of programs in `m`. -/
class Files (m : Type → Type) where
  /-- What the path leads to, if it leads to anything. -/
  kind? (path : Path) : m (Option FileKind)
  /-- The files at or below a path, at any depth and in any order: the names on
  the way down to each. -/
  filesBelow (path : Path) : m (List (List String))
  /-- The bytes of a file. -/
  read (path : Path) : m (Except FileFault ByteArray)
  /-- Makes a file hold these bytes alone. Its directory must be there. -/
  write (path : Path) (bytes : ByteArray) : m (Except FileFault Unit)
  /-- Makes a directory with all directories above it, as far as they are
  missing. -/
  makeDirectories (path : Path) : m (Except FileFault Unit)

namespace Files

variable {m : Type → Type} [Monad m] [Files m] {α : Type}

/-- Stops with the fault of a file operation. -/
def orStop (operation : m (Except FileFault α)) : ExceptT Error m α :=
  ExceptT.mk do
    match ← operation with
    | .ok value => return .ok value
    | .error fault => return .error (.file fault)

/-- What the path leads to, if it leads to anything. -/
def kindOf (path : Path) : ExceptT Error m (Option FileKind) :=
  ExceptT.lift (kind? path)

/-- The bytes of a file. -/
def load (path : Path) : ExceptT Error m ByteArray :=
  orStop (read path)

/-- Makes a directory with all directories above it. -/
def ensureDirectory (path : Path) : ExceptT Error m Unit :=
  orStop (makeDirectories path)

/-- Makes a file hold a text alone. Its directory must be there. -/
def overwrite (path : Path) (text : String) : ExceptT Error m Unit :=
  orStop (write path text.toUTF8)

/-- Makes a file hold a text alone, and its directory if that is missing. -/
def save (path : Path) (text : String) : ExceptT Error m Unit := do
  ensureDirectory path.parent
  overwrite path text

/-- The bytes of a JSON document of records. A directory counts as a document
that cannot be fetched. -/
def loadRecords (path : Path) : ExceptT Error m ByteArray :=
  ExceptT.mk do
    match ← read path with
    | .ok bytes => return .ok bytes
    | .error .isADirectory => return .error (.json .unreadable)
    | .error fault => return .error (.file fault)

end Files

end TreeSeq
