import TreeSeq.Features.Basic
import TreeSeq.Sequence.Decoding
import TreeSeq.Sequence.Encoding
import TreeSeq.Sequence.Json
import TreeSeq.TokenStream

/-!
# What stages make of a file

A conversion makes the text of a new file out of the bytes of a file, and
counts the items in it. It knows no other file, so a file that fails to convert
leaves no trace.
-/

namespace TreeSeq.Batch

/-- The text of a new file and the number of items in it. -/
structure Product where
  text : String
  items : Nat
  deriving DecidableEq, Inhabited

/-- Makes a new file out of the bytes of a file. -/
abbrev Conversion := ByteArray → Except Error Product

namespace Conversion

/-- A sequence out of a tree. Items are records. -/
def encode : Conversion := fun bytes => do
  let tree ← Node.load bytes
  let sequence ← tree.encode 0
  return ⟨sequence.save, sequence.length⟩

/-- A tree out of a sequence. Items are nodes. -/
def decode : Conversion := fun bytes => do
  let sequence ← Sequence.load bytes
  let tree ← sequence.decode
  return ⟨tree.save, tree.count⟩

/-- Token streams out of a text. Items are lines. -/
def hash (hasher : Hasher) : Conversion := fun bytes => do
  let lines ← hasher.hashFile bytes
  return ⟨Text.unlines lines, lines.length⟩

/-- A text out of token streams. Items are lines. -/
def unhash (hasher : Hasher) : Conversion := fun bytes => do
  let lines ← hasher.unhashFile bytes
  return ⟨Text.unlines lines, lines.length⟩

/-- Vectors over fixed columns out of a sequence. Items are records. -/
def vectorize (columns : Columns) : Conversion := fun bytes => do
  let sequence ← Sequence.load bytes
  let lines := (columns.vectors sequence).map vectorText
  return ⟨Text.joinLines lines, lines.length⟩

end Conversion

end TreeSeq.Batch
