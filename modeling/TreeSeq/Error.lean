import TreeSeq.Json.Fault
import TreeSeq.Json.Printer
import TreeSeq.Text.Quoted

/-!
# Errors

Every way in which an operation of this library fails, by its cause, and the
wording of each in one place (`Error.message`).
-/

namespace TreeSeq

/-- Why a tree is not well formed. -/
inductive TreeFault where
  /-- A node has to be a JSON object. -/
  | notAnObject
  /-- A node has to have a type. -/
  | missingNodeType
  /-- The coordinate of a node is a text or null. -/
  | badSpan (found : Json.Value)
  /-- The empty slots of a node are a list of names. -/
  | badEmptySlots
  /-- An attribute is a number other than a 64-bit integer. -/
  | unsupportedNumber (name : String) (found : Json.Number)
  /-- An attribute is a list of lists. -/
  | nestedLiteral (name : String)
  /-- The node that would get this index has no type. -/
  | untypedNode (index : Nat)

/-- Why records do not make up trees. -/
inductive SequenceFault where
  /-- There is no record, hence no tree. -/
  | noRecords
  /-- There are several trees where one is asked for. -/
  | unconnectedRoots (count : Nat)
  /-- Two records have the same index. -/
  | duplicateIndex (index : Nat)
  /-- A record is referenced a second time, or from inside its own subtree. -/
  | repeatedReference (index parent : Nat)
  /-- A root is not among the records. -/
  | unknownRoot (index : Nat)
  /-- A root was left without a tree. -/
  | unfinishedRoot (index : Nat)
  deriving DecidableEq, Repr

/-- Why a mapping between tokens and ids is not one to one onto `0, 1, …`. -/
inductive BijectionFault where
  | idOutOfRange (id : Nat) (token : String) (size : Nat)
  | sharedId (id : Nat) (first second : String)
  | sharedToken (token : String) (first second : Nat)
  deriving DecidableEq, Repr

/-- What is wrong with a line of a vocabulary file. -/
inductive VocabularyFault where
  | blankInToken (token : String)
  | repeatedToken (token : String) (line : Nat)
  deriving DecidableEq, Repr

/-- Why a file operation fails. -/
inductive FileFault where
  | notFound
  | alreadyExists
  | notADirectory
  | isADirectory
  /-- The file does not hold UTF-8 text. -/
  | notText
  /-- The place where the input of a batch should be is empty. -/
  | missingInput (path : String)
  /-- Any other failure that the system reports. -/
  | other (text : String)
  deriving DecidableEq, Repr

/-- What is wrong with a file pattern. -/
inductive PatternFault where
  /-- More than two asterisks in a row. -/
  | tooManyStars
  /-- Two asterisks beside something other than a slash. -/
  | mixedStars
  /-- A character class that is not closed. -/
  | openClass
  deriving DecidableEq, Repr

/-- Why an operation fails. -/
inductive Error where
  | file (fault : FileFault)
  | json (fault : Json.Fault)
  | tree (fault : TreeFault)
  /-- A record references an index that no record has. -/
  | danglingReference (parent index : Nat)
  | sequence (fault : SequenceFault)
  | bijection (fault : BijectionFault)
  /-- No token has this id. -/
  | unknownId (id : Nat)
  | vocabulary (line : Nat) (fault : VocabularyFault)
  /-- An item of a token stream is not an id. -/
  | tokenStream (item : String)
  | pattern (fault : PatternFault)

namespace TreeFault

/-- The wording of the fault. -/
def message : TreeFault → String
  | notAnObject => "expected a JSON object"
  | missingNodeType => "node is missing a non-empty _nodetype"
  | badSpan found => "coord must be a string or null, got " ++ found.compact
  | badEmptySlots => "_empty_slots must be a list of names"
  | unsupportedNumber name found =>
    "attribute " ++ name ++ ": unsupported number " ++ found.text
  | nestedLiteral name => "attribute " ++ name ++ ": nested values are not literals"
  | untypedNode index => "node at index " ++ toString index ++ " has an empty node_type"

end TreeFault

namespace SequenceFault

/-- The wording of the fault. -/
def message : SequenceFault → String
  | noRecords => "sequence contains no records"
  | unconnectedRoots count => "sequence contains " ++ toString count ++ " unconnected roots"
  | duplicateIndex index => "more than one record claims index " ++ toString index
  | repeatedReference index parent =>
    "index " ++ toString index ++ " is referenced more than once (via record " ++
      toString parent ++ ")"
  | unknownRoot index => "record " ++ toString index ++ " is not part of the sequence"
  | unfinishedRoot index => "record " ++ toString index ++ " did not resolve to a tree"

end SequenceFault

namespace BijectionFault

/-- The wording of the fault. -/
def message : BijectionFault → String
  | idOutOfRange id token size =>
    "id " ++ toString id ++ " of " ++ Text.quoted token ++ " lies outside [0, " ++
      toString size ++ ")"
  | sharedId id first second =>
    "tokens " ++ Text.quoted first ++ " and " ++ Text.quoted second ++ " share id " ++ toString id
  | sharedToken token first second =>
    "token " ++ Text.quoted token ++ " is mapped from ids " ++ toString first ++ " and " ++
      toString second

end BijectionFault

namespace VocabularyFault

/-- The wording of the fault. -/
def message : VocabularyFault → String
  | blankInToken token => "token " ++ Text.quoted token ++ " contains whitespace"
  | repeatedToken token line =>
    "token " ++ Text.quoted token ++ " already defined on line " ++ toString line

end VocabularyFault

namespace FileFault

/-- The wording of the fault. -/
def message : FileFault → String
  | notFound => "No such file or directory (os error 2)"
  | alreadyExists => "File exists (os error 17)"
  | notADirectory => "Not a directory (os error 20)"
  | isADirectory => "Is a directory (os error 21)"
  | notText => "stream did not contain valid UTF-8"
  | missingInput path => "input path " ++ path ++ " does not exist"
  | other text => text

end FileFault

namespace PatternFault

/-- The wording of the fault. -/
def message : PatternFault → String
  | tooManyStars => "wildcards are either regular `*` or recursive `**`"
  | mixedStars => "recursive wildcards must form a single path component"
  | openClass => "invalid range pattern"

end PatternFault

namespace Error

/-- The wording of an error. -/
def message : Error → String
  | file fault => "io error: " ++ fault.message
  | json fault => "serde json error: " ++ fault.word
  | tree fault => "malformed tree: " ++ fault.message
  | danglingReference parent index =>
    "record " ++ toString parent ++ " references missing index " ++ toString index
  | sequence fault => "malformed sequence: " ++ fault.message
  | bijection fault => "vocabulary is not a bijection: " ++ fault.message
  | unknownId id => "unknown token id: " ++ toString id
  | vocabulary line fault =>
    "vocabulary file corrupt at line " ++ toString line ++ ": " ++ fault.message
  | tokenStream item => "invalid token stream: " ++ Text.quoted item ++ " is not a token id"
  | pattern fault => "other: " ++ fault.message

/-- What the error itself was caused by, if it only passes that on. -/
def cause? : Error → Option String
  | file fault => some fault.message
  | json fault => some fault.word
  | _ => none

end Error

end TreeSeq
