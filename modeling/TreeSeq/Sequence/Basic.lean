import TreeSeq.Tree.Basic

/-!
# Sequences of records

A record is a node whose children are named by index instead of being held. A
sequence is a list of records; the records of an encoded tree stand in
pre-order and are numbered consecutively, but any list is a sequence.
-/

namespace TreeSeq

/-- A node whose children are named by index. -/
structure Record where
  index : Nat
  nodeType : String
  scalars : Fields Literal
  /-- The slots, in order, with the indices of the children in each. -/
  slotRefs : Fields (List Nat)
  span : Option String
  deriving DecidableEq, Inhabited

/-- A list of records. -/
abbrev Sequence := List Record

namespace Record

/-- The indices of all children, slot by slot. -/
def children (record : Record) : List Nat :=
  record.slotRefs.flatMap (·.2)

/-- Do two records agree, the order of attributes and of slots aside? -/
def same (a b : Record) : Bool :=
  a.index == b.index && a.nodeType == b.nodeType && Fields.same a.scalars b.scalars &&
    Fields.same a.slotRefs b.slotRefs && a.span == b.span

end Record

namespace Sequence

/-- The greatest index of a record. -/
def maxIndex? (sequence : Sequence) : Option Nat :=
  (sequence.map (·.index)).max?

/-- Do two sequences agree record by record, the order of attributes and of
slots aside? -/
def same : Sequence → Sequence → Bool
  | [], [] => true
  | record :: rest, other :: others => record.same other && same rest others
  | _, _ => false

end Sequence

end TreeSeq
