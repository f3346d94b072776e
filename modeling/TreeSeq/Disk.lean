import TreeSeq.Fields
import TreeSeq.Files

/-!
# Disks

A `Disk` holds files and directories at locations, a location being the names
on the way down from the root. The root is a directory. Programs in
`StateM Disk` work on files (`Files (StateM Disk)`), with the faults that a
file system reports.
-/

namespace TreeSeq

/-- What stands at a location. -/
inductive DiskEntry where
  | file (bytes : ByteArray)
  | directory
  deriving Inhabited

instance : DecidableEq DiskEntry
  | .file a, .file b =>
    match ByteArray.instDecidableEq a b with
    | .isTrue h => .isTrue (congrArg _ h)
    | .isFalse h => .isFalse fun he => h (DiskEntry.file.inj he)
  | .file _, .directory => .isFalse nofun
  | .directory, .file _ => .isFalse nofun
  | .directory, .directory => .isTrue rfl

/-- Files and directories at locations. -/
structure Disk where
  entries : List (List String × DiskEntry)
  /-- A location holds one thing. -/
  distinct : Fields.Distinct entries

namespace Disk

/-- The root alone. -/
def empty : Disk :=
  ⟨[], Fields.distinct_nil⟩

instance : Inhabited Disk := ⟨empty⟩

/-- What stands at a location. -/
def entry? (disk : Disk) (location : List String) : Option DiskEntry :=
  if location.isEmpty then some .directory else Fields.get? disk.entries location

/-- Puts something at a location. -/
def put (disk : Disk) (location : List String) (entry : DiskEntry) : Disk :=
  ⟨Fields.put disk.entries location entry, disk.distinct.put _ _⟩

/-- Where names lead from a location. Every name but the last must lead to a
directory. -/
def follow (disk : Disk) (here : List String) : List String → Except FileFault (List String)
  | [] => .ok here
  | part :: rest =>
    match disk.entry? here with
    | none => .error .notFound
    | some (.file _) => .error .notADirectory
    | some .directory =>
      if Path.stays part then disk.follow here rest
      else if part == ".." then disk.follow here.dropLast rest
      else disk.follow (here ++ [part]) rest

/-- What a path leads to. -/
def lookUp (disk : Disk) (path : Path) : Except FileFault DiskEntry :=
  if path.text.isEmpty then .error .notFound
  else match disk.follow [] path.parts with
    | .error fault => .error fault
    | .ok location =>
      match disk.entry? location with
      | some entry => .ok entry
      | none => .error .notFound

/-- What a path leads to, if it leads to anything. -/
def kind? (disk : Disk) (path : Path) : Option FileKind :=
  match disk.lookUp path with
  | .ok (.file _) => some .file
  | .ok .directory => some .directory
  | .error _ => none

/-- The bytes of the file that a path leads to. -/
def read (disk : Disk) (path : Path) : Except FileFault ByteArray :=
  match disk.lookUp path with
  | .ok (.file bytes) => .ok bytes
  | .ok .directory => .error .isADirectory
  | .error fault => .error fault

/-- The names on the way down from a location to a file at or below it. -/
def below? (top : List String) : List String × DiskEntry → Option (List String)
  | (location, .file _) =>
    if top.isPrefixOf location then some (location.drop top.length) else none
  | (_, .directory) => none

/-- The files at or below what a path leads to. -/
def filesBelow (disk : Disk) (path : Path) : List (List String) :=
  match disk.follow [] path.parts with
  | .ok top => disk.entries.filterMap (below? top)
  | .error _ => []

/-- The location that a file at the end of a path has. The directories on the
way must be there, and the path must end in a name. -/
def fileLocation (disk : Disk) (path : Path) : Except FileFault (List String) :=
  match path.parts.reverse.dropWhile (· == "") with
  | [] => .error .notFound
  | last :: above =>
    match disk.follow [] above.reverse with
    | .error fault => .error fault
    | .ok location =>
      match disk.entry? location with
      | none => .error .notFound
      | some (.file _) => .error .notADirectory
      | some .directory =>
        if path.text.endsWith "/" || last == "." || last == ".." then .error .isADirectory
        else .ok (location ++ [last])

/-- Makes the file at the end of a path hold these bytes alone. -/
def write (disk : Disk) (path : Path) (bytes : ByteArray) : Except FileFault Disk :=
  match disk.fileLocation path with
  | .error fault => .error fault
  | .ok location =>
    if disk.entry? location = some .directory then .error .isADirectory
    else .ok (disk.put location (.file bytes))

/-- Makes the directories that are missing along names from a location. Those
made before a fault remain. -/
def descend (disk : Disk) (here : List String) : List String → Except FileFault Unit × Disk
  | [] => (.ok (), disk)
  | part :: rest =>
    if Path.stays part then disk.descend here rest
    else if part == ".." then disk.descend here.dropLast rest
    else
      let there := here ++ [part]
      match disk.entry? there with
      | some .directory => disk.descend there rest
      | some (.file _) =>
        (.error (if rest.all Path.stays then .alreadyExists else .notADirectory), disk)
      | none => (disk.put there .directory).descend there rest

/-- Makes a directory with all directories above it, as far as they are
missing. -/
def makeDirectories (disk : Disk) (path : Path) : Except FileFault Unit × Disk :=
  disk.descend [] path.parts

/-- Makes the file at the end of a path hold these bytes alone, if it can. -/
def tryWrite (disk : Disk) (path : Path) (bytes : ByteArray) : Except FileFault Unit × Disk :=
  match disk.write path bytes with
  | .ok disk => (.ok (), disk)
  | .error fault => (.error fault, disk)

instance : Files (StateM Disk) where
  kind? path := return (← get).kind? path
  filesBelow path := return (← get).filesBelow path
  read path := return (← get).read path
  write path bytes := modifyGet (·.tryWrite path bytes)
  makeDirectories path := modifyGet (·.makeDirectories path)

end Disk

end TreeSeq
