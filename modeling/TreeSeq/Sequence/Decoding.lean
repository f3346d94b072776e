import Std.Data.HashMap
import TreeSeq.Error
import TreeSeq.Sequence.Basic

/-!
# From sequences to trees

Decoding looks at the records in ascending order of index. A record that no
tree holds yet is a root; its tree is built by following references depth
first. Each record may be put into a tree once: a reference to a record that
is in a tree already, or being built, is an error, and so is a reference to no
record.

A tree is built on an explicit stack of frames, one for each node between the
root and the node at hand, so its depth is bounded by memory alone. Every step
either takes a record out of those not yet placed or shortens what the frames
have left to do (`Build.step_lt`), so building ends on any references, cyclic
ones included.
-/

namespace TreeSeq

namespace Sequence

/-- Records by index. -/
abbrev Table := Std.HashMap Nat Record

/-- A record that is taken out of a table leaves fewer. -/
theorem size_erase_lt {table : Table} {index : Nat} {record : Record}
    (h : table[index]? = some record) : (table.erase index).size < table.size := by
  have hm : index ∈ table := by
    rw [Std.HashMap.mem_iff_isSome_getElem?, h]
    rfl
  have hn : table.size ≠ 0 := fun h0 => by
    have he : table.isEmpty = true := by
      rw [Std.HashMap.isEmpty_eq_size_eq_zero, h0]
      rfl
    exact Std.HashMap.isEmpty_iff_forall_not_mem.mp he index hm
  rw [Std.HashMap.size_erase, if_pos hm]
  omega

/-- A record whose node is being built. -/
structure Frame where
  record : Record
  /-- The complete slots, latest first. -/
  complete : List (String × List Node)
  /-- The children of the slot at hand, latest first. -/
  children : List Node
  /-- The slot at hand and those after it, with the references left in each. -/
  pending : List (String × List Nat)

namespace Frame

/-- A record of which nothing is built yet. -/
def ofRecord (record : Record) : Frame :=
  ⟨record, [], [], record.slotRefs⟩

/-- The frame with its first slot at hand complete. -/
def closeSlot (frame : Frame) (slot : String) (rest : List (String × List Nat)) : Frame :=
  { frame with
    complete := (slot, frame.children.reverse) :: frame.complete, children := [], pending := rest }

/-- The frame with a finished child in the slot at hand. -/
def adopt (frame : Frame) (child : Node) : Frame :=
  { frame with children := child :: frame.children }

/-- The node of a frame in which every slot is complete. -/
def node (frame : Frame) : Node :=
  ⟨frame.record.nodeType, frame.record.scalars, frame.complete.reverse, frame.record.span⟩

/-- How much a frame has left to do. -/
def work (frame : Frame) : Nat :=
  1 + (frame.pending.map fun slot => 1 + slot.2.length).foldr (· + ·) 0

theorem work_pos (frame : Frame) : 0 < frame.work :=
  Nat.lt_of_lt_of_le Nat.one_pos (Nat.le_add_right _ _)

theorem work_adopt (frame : Frame) (child : Node) : (frame.adopt child).work = frame.work := rfl

/-- Completing a slot leaves less to do. -/
theorem work_closeSlot_lt {frame : Frame} {slot : String} {refs : List Nat}
    {rest : List (String × List Nat)} (h : frame.pending = (slot, refs) :: rest) :
    (frame.closeSlot slot rest).work < frame.work := by
  simp only [work, closeSlot, h, List.map_cons, List.foldr_cons]
  omega

end Frame

/-- A tree that is being built. -/
structure Build where
  /-- The frames from the node at hand up to the root. -/
  frames : List Frame
  /-- The records that are in no tree yet. -/
  unplaced : Table

/-- What a step leads to. -/
inductive Progress where
  | more (build : Build)
  /-- The tree is finished; these records are still in no tree. -/
  | done (tree : Node) (unplaced : Table)

namespace Build

/-- How much a build has left to do: records first, then the work of the
frames. -/
def left (build : Build) : Nat × Nat :=
  (build.unplaced.size, (build.frames.map Frame.work).foldr (· + ·) 0)

/-- One step of building a tree with the records of `table`. `root` is named
should there be no frame. -/
def step (table : Table) (root : Nat) (build : Build) : Except Error Progress :=
  match build.frames with
  | [] => .error (.sequence (.unfinishedRoot root))
  | frame :: above =>
    match frame.pending with
    | [] =>
      match above with
      | [] => .ok (.done frame.node build.unplaced)
      | parent :: rest => .ok (.more ⟨parent.adopt frame.node :: rest, build.unplaced⟩)
    | (slot, []) :: rest => .ok (.more ⟨frame.closeSlot slot rest :: above, build.unplaced⟩)
    | (slot, child :: refs) :: rest =>
      match build.unplaced[child]? with
      | some record =>
        let frame := { frame with pending := (slot, refs) :: rest }
        .ok (.more ⟨.ofRecord record :: frame :: above, build.unplaced.erase child⟩)
      | none =>
        if table.contains child then
          .error (.sequence (.repeatedReference child frame.record.index))
        else
          .error (.danglingReference frame.record.index child)

/-- Each step leaves less to do. -/
theorem step_lt {table : Table} {root : Nat} {build next : Build}
    (h : build.step table root = .ok (.more next)) :
    Prod.Lex (· < ·) (· < ·) next.left build.left := by
  obtain ⟨frames, unplaced⟩ := build
  unfold step at h
  split at h
  · cases h
  · rename_i frame above hf
    cases hf
    split at h
    · split at h
      · cases h
      · cases h
        refine Prod.Lex.right _ ?_
        simp only [List.map_cons, List.foldr_cons, Frame.work_adopt]
        have := frame.work_pos
        omega
    · rename_i slot rest hp
      cases h
      refine Prod.Lex.right _ ?_
      simp only [List.map_cons, List.foldr_cons]
      have := Frame.work_closeSlot_lt hp
      omega
    · split at h
      · rename_i hr
        cases h
        exact Prod.Lex.left _ _ (size_erase_lt hr)
      · split at h <;> cases h

/-- Carries a build through to its tree. -/
def run (table : Table) (root : Nat) (build : Build) : Except Error (Node × Table) :=
  match _h : build.step table root with
  | .error e => .error e
  | .ok (.done tree unplaced) => .ok (tree, unplaced)
  | .ok (.more next) => run table root next
termination_by build.left
decreasing_by exact step_lt (by assumption)

end Build

/-- Builds the tree of a root out of the records that are in no tree yet. -/
def treeAt (table : Table) (unplaced : Table) (root : Nat) : Except Error (Node × Table) :=
  match unplaced[root]? with
  | some record => Build.run table root ⟨[.ofRecord record], unplaced.erase root⟩
  | none => .error (.sequence (.unknownRoot root))

/-- The trees whose roots are among these indices, in their order, after those
found before, latest first. -/
def treesFrom (table : Table) (unplaced : Table) (found : List Node) :
    List Nat → Except Error (List Node)
  | [] => .ok found.reverse
  | root :: rest =>
    if unplaced.contains root then
      match treeAt table unplaced root with
      | .error e => .error e
      | .ok (tree, unplaced) => treesFrom table unplaced (tree :: found) rest
    else
      treesFrom table unplaced found rest

/-- The records by index, after those of `table`. No index may repeat. -/
def tableFrom (table : Table) : Sequence → Except Error Table
  | [] => .ok table
  | record :: rest =>
    if table.contains record.index then .error (.sequence (.duplicateIndex record.index))
    else tableFrom (table.insert record.index record) rest

/-- The trees of a sequence, by ascending index of their roots. -/
def forest (sequence : Sequence) : Except Error (List Node) :=
  match tableFrom ∅ sequence with
  | .error e => .error e
  | .ok table => treesFrom table table [] ((sequence.map (·.index)).mergeSort (· ≤ ·))

/-- The tree of a sequence that holds exactly one. -/
def decode (sequence : Sequence) : Except Error Node :=
  match forest sequence with
  | .error e => .error e
  | .ok [tree] => .ok tree
  | .ok [] => .error (.sequence .noRecords)
  | .ok trees => .error (.sequence (.unconnectedRoots trees.length))

end Sequence

end TreeSeq
