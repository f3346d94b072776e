import TreeSeq.CommandLine.Command
import TreeSeq.Fields
import TreeSeq.Text.Numeral

/-!
# Arguments

The arguments name a command. Options start with two dashes; a value follows
after an equals sign or as the next argument, which does not start with a dash
then. An option stands once, except that the options of all commands may stand
before the name of the command and again after it, where they go first. What
follows two dashes alone is no option. The version stands before any command,
and what comes after it does not count.
-/

namespace TreeSeq.CommandLine

/-- An argument by its form. -/
inductive Argument where
  /-- An option, with a value if one is attached. -/
  | option (name : String) (value : Option String)
  /-- One dash with a letter after it. -/
  | letter (c : Char)
  /-- Two dashes alone. -/
  | dashes
  | operand (text : String)
  deriving DecidableEq, Repr

namespace Argument

/-- The form of an argument. -/
def ofText (text : String) : Argument :=
  match text.toList with
  | ['-', '-'] => dashes
  | '-' :: '-' :: rest =>
    match rest.span (· != '=') with
    | (name, '=' :: value) => option (String.ofList name) (some (String.ofList value))
    | (name, _) => option (String.ofList name) none
  | '-' :: c :: _ => letter c
  | _ => operand text

/-- May the text be the value of an option as an argument of its own? -/
def isValue (text : String) : Bool :=
  match ofText text with
  | operand _ => true
  | _ => false

end Argument

/-- The options that are known. -/
structure Known where
  /-- The options that take a value. -/
  valued : List String
  /-- The options that take none. -/
  flags : List String

/-- The options and operands that are given. -/
structure Given where
  values : Fields String
  flags : List String
  operands : List String
  deriving DecidableEq

namespace Given

/-- Nothing is given. -/
def empty : Given :=
  ⟨[], [], []⟩

/-- Adds an option with its value, which must be new and known. -/
def addValue? (given : Given) (known : Known) (name value : String) : Option Given :=
  if known.valued.contains name && !Fields.has given.values name then
    some { given with values := Fields.put given.values name value }
  else none

/-- Adds an option without a value, which must be new and known. -/
def addFlag? (given : Given) (known : Known) (name : String) : Option Given :=
  if known.flags.contains name && !given.flags.contains name then
    some { given with flags := given.flags ++ [name] }
  else none

/-- Adds operands. -/
def addOperands (given : Given) (texts : List String) : Given :=
  { given with operands := given.operands ++ texts }

/-- Adds the options and operands of a command. -/
def ofArguments? (known : Known) (given : Given) : List String → Option Given
  | [] => some given
  | text :: rest =>
    match Argument.ofText text with
    | .dashes => some (given.addOperands rest)
    | .operand operand => ofArguments? known (given.addOperands [operand]) rest
    | .letter _ => none
    | .option name (some value) => do
      ofArguments? known (← given.addValue? known name value) rest
    | .option name none =>
      if known.flags.contains name then do
        ofArguments? known (← given.addFlag? known name) rest
      else match rest with
        | value :: rest =>
          if Argument.isValue value then do
            ofArguments? known (← given.addValue? known name value) rest
          else none
        | [] => none

/-! ## What is given -/

/-- The path that a text is; the empty text is none. -/
def path? (text : String) : Option Path :=
  if text.isEmpty then none else some ⟨text⟩

/-- The value of an option. -/
def text? (given : Given) (name : String) : Option String :=
  Fields.get? given.values name

/-- The path that is the value of an option. It must be given. -/
def pathOf? (given : Given) (name : String) : Option Path :=
  given.text? name >>= path?

/-- The value of an option if it is given, that `read` must accept then. -/
def optional? {α : Type} (given : Given) (read : String → Option α) (name : String) :
    Option (Option α) :=
  match given.text? name with
  | some text => (read text).map some
  | none => some none

/-- A number that 64 bits hold. -/
def natural? : String → Option Nat :=
  Text.readBelow? UInt64.size

/-- The path that is the only operand. -/
def input? (given : Given) : Option Path :=
  match given.operands with
  | [text] => path? text
  | _ => none

/-- The paths that are the operands, of which there must be one. -/
def inputs? (given : Given) : Option (List Path) :=
  if given.operands.isEmpty then none else given.operands.mapM path?

/-- Is an option given that takes no value? -/
def hasFlag (given : Given) (name : String) : Bool :=
  given.flags.contains name

/-- What a batch command is given. -/
def batchFlags? (given : Given) : Option BatchFlags := do
  return ⟨given.text? "pattern", ← given.optional? natural? "threads", given.text? "out-ext",
    given.hasFlag "no-manifest"⟩

end Given

/-! ## Commands -/

/-- How a command is written. -/
structure Form where
  name : String
  /-- The options of the command. -/
  options : Known
  /-- The command, if all that it needs is given. -/
  build : Given → Option Command

/-- The options of batch commands, after some others. -/
def batchOptions (valued : List String) : Known :=
  ⟨valued ++ ["pattern", "threads", "out-ext"], ["no-manifest"]⟩

/-- How each command is written. -/
def forms : List Form :=
  [⟨"encode", ⟨["out", "base"], []⟩, fun given => do
      return .encode (← given.input?) (← given.pathOf? "out")
        ((← given.optional? Given.natural? "base").getD 0)⟩,
    ⟨"decode", ⟨["out"], []⟩, fun given => do
      return .decode (← given.input?) (← given.pathOf? "out")⟩,
    ⟨"encode-dir", batchOptions ["out"], fun given => do
      return .encodeAll (← given.input?) (← given.pathOf? "out") (← given.batchFlags?)⟩,
    ⟨"decode-dir", batchOptions ["out"], fun given => do
      return .decodeAll (← given.input?) (← given.pathOf? "out") (← given.batchFlags?)⟩,
    ⟨"vocab", ⟨["out", "existing", "pattern"], []⟩, fun given => do
      return .vocabulary (← given.inputs?) (← given.pathOf? "out")
        (← given.optional? Given.path? "existing") (given.text? "pattern")⟩,
    ⟨"hash", ⟨["out", "vocab"], []⟩, fun given => do
      return .hash (← given.input?) (← given.optional? Given.path? "vocab")
        (← given.pathOf? "out")⟩,
    ⟨"unhash", ⟨["out", "vocab"], []⟩, fun given => do
      return .unhash (← given.input?) (← given.optional? Given.path? "vocab")
        (← given.pathOf? "out")⟩,
    ⟨"hash-dir", batchOptions ["out", "vocab"], fun given => do
      return .hashAll (← given.input?) (← given.optional? Given.path? "vocab")
        (← given.pathOf? "out") (← given.batchFlags?)⟩,
    ⟨"unhash-dir", batchOptions ["out", "vocab"], fun given => do
      return .unhashAll (← given.input?) (← given.optional? Given.path? "vocab")
        (← given.pathOf? "out") (← given.batchFlags?)⟩,
    ⟨"vectorize", ⟨["out", "features"], ["single-pass"]⟩, fun given => do
      return .vectorize (← given.input?) (← given.pathOf? "out")
        (← given.optional? Given.path? "features") (given.hasFlag "single-pass")⟩,
    ⟨"vectorize-dir", batchOptions ["out", "features"], fun given => do
      return .vectorizeAll (← given.input?) (← given.pathOf? "out")
        (← given.optional? Given.path? "features") (← given.batchFlags?)⟩,
    ⟨"stats", ⟨[], []⟩, fun given => return .stats (← given.input?)⟩]

/-- The options of all commands. -/
def general : Known :=
  ⟨["config"], ["verbose"]⟩

/-- The invocation of a command, `first` being what is given before its name. -/
def invocation? (first : Given) (form : Form) (arguments : List String) : Option Invocation := do
  let known : Known := ⟨general.valued ++ form.options.valued, general.flags ++ form.options.flags⟩
  let given ← Given.ofArguments? known .empty arguments
  let outer ← first.optional? Given.path? "config"
  let inner ← given.optional? Given.path? "config"
  return ⟨inner <|> outer, first.hasFlag "verbose" || given.hasFlag "verbose", ← form.build given⟩

/-- What a command of this name asks for. -/
def requestOf (first : Given) (name : String) (arguments : List String) : Request :=
  match forms.find? (·.name == name) with
  | none => .misuse
  | some form =>
    match invocation? first form arguments with
    | some invocation => .run invocation
    | none => .misuse

/-- What the arguments ask for, `first` being what is given before them. -/
def parseFrom (first : Given) : List String → Request
  | [] => .misuse
  | text :: rest =>
    match Argument.ofText text with
    | .dashes => .misuse
    | .operand name => requestOf first name rest
    | .letter c => if c == 'V' then .version else .misuse
    | .option name (some value) =>
      match first.addValue? general name value with
      | some first => parseFrom first rest
      | none => .misuse
    | .option name none =>
      if name == "version" then .version
      else if general.flags.contains name then
        match first.addFlag? general name with
        | some first => parseFrom first rest
        | none => .misuse
      else match rest with
        | value :: rest =>
          if Argument.isValue value then
            match first.addValue? general name value with
            | some first => parseFrom first rest
            | none => .misuse
          else .misuse
        | [] => .misuse

/-- What the arguments of the program ask for. -/
def parse (arguments : List String) : Request :=
  parseFrom .empty arguments

end TreeSeq.CommandLine
