import Std.Data.HashMap
import TreeSeq.Json.Value
import TreeSeq.Sequence.Basic

/-!
# Measures of a sequence

The records are visited once, in ascending order of index. A record that no
earlier one references is counted as a root, at depth 0; a child is one deeper
than the first earlier record that references it.
-/

namespace TreeSeq

/-- Measures of a sequence. -/
structure Stats where
  records : Nat
  roots : Nat
  /-- The records without any child. -/
  leaves : Nat
  maxDepth : Nat
  /-- The references of all records together. -/
  slotRefs : Nat
  /-- How often each node type occurs, the most frequent first and equally
  frequent ones by name. -/
  nodeTypes : Fields Nat
  deriving DecidableEq

namespace Stats

/-- The counts so far, with the depths of the indices referenced so far. -/
structure Tally where
  depths : Std.HashMap Nat Nat
  roots : Nat
  leaves : Nat
  maxDepth : Nat
  slotRefs : Nat
  nodeTypes : Fields Nat

namespace Tally

/-- Nothing is counted yet. -/
def empty : Tally :=
  ⟨∅, 0, 0, 0, 0, []⟩

/-- Counts one more record. -/
def add (tally : Tally) (record : Record) : Tally :=
  let known := tally.depths[record.index]?
  let depth := known.getD 0
  let children := record.children
  { depths := children.foldl (fun depths child => depths.insertIfNew child (depth + 1)) tally.depths
    roots := if known.isNone then tally.roots + 1 else tally.roots
    leaves := if children.isEmpty then tally.leaves + 1 else tally.leaves
    maxDepth := max tally.maxDepth depth
    slotRefs := tally.slotRefs + children.length
    nodeTypes := Fields.put tally.nodeTypes record.nodeType
      ((Fields.get? tally.nodeTypes record.nodeType).getD 0 + 1) }

end Tally

/-- Does a count come before another? -/
def before (a b : String × Nat) : Bool :=
  b.2 < a.2 || (a.2 == b.2 && a.1 ≤ b.1)

/-- The measures of a sequence. -/
def measure (sequence : Sequence) : Stats :=
  let tally := (sequence.mergeSort (·.index ≤ ·.index)).foldl Tally.add .empty
  ⟨sequence.length, tally.roots, tally.leaves, tally.maxDepth, tally.slotRefs,
    tally.nodeTypes.mergeSort before⟩

/-- The measures as JSON. -/
def toJson (stats : Stats) : Json.Value :=
  .object [("records", .ofNat stats.records), ("roots", .ofNat stats.roots),
    ("leaves", .ofNat stats.leaves), ("max_depth", .ofNat stats.maxDepth),
    ("slot_refs", .ofNat stats.slotRefs),
    ("node_types", .object (stats.nodeTypes.map fun entry => (entry.1, .ofNat entry.2)))]

end Stats

end TreeSeq
