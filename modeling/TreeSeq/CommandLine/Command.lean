import TreeSeq.Settings

/-!
# Commands

What the program can be asked to do.
-/

namespace TreeSeq.CommandLine

/-- What the program is asked to do. -/
inductive Command where
  /-- Makes a sequence out of a tree, numbered from `base` on. -/
  | encode (input output : Path) (base : Nat)
  /-- Makes a tree out of a sequence. -/
  | decode (input output : Path)
  | encodeAll (input output : Path) (flags : BatchFlags)
  | decodeAll (input output : Path) (flags : BatchFlags)
  /-- Makes a vocabulary out of the words of files and directories. -/
  | vocabulary (inputs : List Path) (output : Path) (existing : Option Path)
    (pattern : Option String)
  | hash (input : Path) (vocabulary : Option Path) (output : Path)
  | unhash (input : Path) (vocabulary : Option Path) (output : Path)
  | hashAll (input : Path) (vocabulary : Option Path) (output : Path) (flags : BatchFlags)
  | unhashAll (input : Path) (vocabulary : Option Path) (output : Path) (flags : BatchFlags)
  /-- Makes vectors out of a sequence; the feature file, if there is one, grows. -/
  | vectorize (input output : Path) (features : Option Path) (singlePass : Bool)
  | vectorizeAll (input output : Path) (features : Option Path) (flags : BatchFlags)
  /-- Measures a sequence. -/
  | stats (input : Path)
  deriving DecidableEq

/-- A command with what holds for all commands. -/
structure Invocation where
  /-- The settings file, if it is not the usual one. -/
  settings : Option Path
  /-- Are more log events asked for? -/
  verbose : Bool
  command : Command
  deriving DecidableEq

/-- What the arguments of the program ask for. -/
inductive Request where
  | run (invocation : Invocation)
  /-- The version of the program. -/
  | version
  /-- The arguments make no sense. -/
  | misuse
  deriving DecidableEq

end TreeSeq.CommandLine
