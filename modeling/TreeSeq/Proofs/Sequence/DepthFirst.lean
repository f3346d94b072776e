import TreeSeq.Sequence.Decoding

/-!
# Building trees depth first

A tree is built on a stack of frames. Here is the recursion that the stack
stands for (`grow`): the trees that a list of references names, one after the
other, each of them completed before the next is begun.

* `Build.run_eq_grow`: a frame on the stack turns into the node of its record,
  filled with the trees that its references grow into;
* `grow_root`: the tree of a root is what a reference to it grows into.
-/

namespace TreeSeq

namespace Record

/-- Deals nodes out to slots, as many to each as it has references. -/
def deal : Fields (List Nat) → List Node → List (String × List Node)
  | [], _ => []
  | (slot, refs) :: rest, nodes =>
    (slot, nodes.take refs.length) :: deal rest (nodes.drop refs.length)

/-- The node that a record describes, with these children. -/
def node (record : Record) (children : List Node) : Node :=
  ⟨record.nodeType, record.scalars, deal record.slotRefs children, record.span⟩

end Record

namespace Sequence

/-- Why a reference is refused: its record is in a tree already, or there is
none. -/
def refusal (table : Table) (parent child : Nat) : Error :=
  if table.contains child then .sequence (.repeatedReference child parent)
  else .danglingReference parent child

/-- The trees that references of the record `parent` name, with the records
that are in no tree after that. Each record is taken out when its turn comes,
and its own references are followed before the next one. -/
def grow (table : Table) (parent : Nat) (unplaced : Table) :
    List Nat → Except Error (List Node × { rest : Table // rest.size ≤ unplaced.size })
  | [] => .ok ([], ⟨unplaced, Nat.le_refl _⟩)
  | child :: refs =>
    match h : unplaced[child]? with
    | none => .error (refusal table parent child)
    | some record =>
      match grow table record.index (unplaced.erase child) record.children with
      | .error e => .error e
      | .ok (children, inner) =>
        match grow table parent inner.1 refs with
        | .error e => .error e
        | .ok (nodes, rest) =>
          .ok (record.node children :: nodes,
            ⟨rest.1, Nat.le_trans (Nat.le_trans rest.2 inner.2) (Nat.le_of_lt (size_erase_lt h))⟩)
termination_by refs => (unplaced.size, refs.length)
decreasing_by
  · exact Prod.Lex.left _ _ (size_erase_lt h)
  · exact Prod.Lex.left _ _ (Nat.lt_of_le_of_lt inner.2 (size_erase_lt h))

section

variable {table unplaced : Table} {parent child : Nat}

theorem grow_refused (h : unplaced[child]? = none) (refs : List Nat) :
    grow table parent unplaced (child :: refs) = .error (refusal table parent child) := by
  rw [grow]
  split
  · rfl
  · rename_i hs
    exact absurd (h.symm.trans hs) (by simp)

theorem grow_descend {record : Record} (h : unplaced[child]? = some record) (refs : List Nat) :
    grow table parent unplaced (child :: refs) =
      match grow table record.index (unplaced.erase child) record.children with
      | .error e => .error e
      | .ok (children, inner) =>
        match grow table parent inner.1 refs with
        | .error e => .error e
        | .ok (nodes, rest) =>
          .ok (record.node children :: nodes,
            ⟨rest.1, Nat.le_trans (Nat.le_trans rest.2 inner.2) (Nat.le_of_lt (size_erase_lt h))⟩) := by
  rw [grow]
  split
  · rename_i hn
    exact absurd (h.symm.trans hn) (by simp)
  · rename_i hs
    cases h.symm.trans hs
    rfl

end

namespace Frame

/-- The references that a frame has left to follow. -/
def refs (frame : Frame) : List Nat :=
  frame.pending.flatMap (·.2)

/-- The slots at hand and after it, once these nodes are in them. -/
def filled (frame : Frame) (nodes : List Node) : List (String × List Node) :=
  match frame.pending with
  | [] => []
  | (slot, refs) :: rest =>
    (slot, frame.children.reverse ++ nodes.take refs.length) ::
      Record.deal rest (nodes.drop refs.length)

/-- The node of a frame, once these nodes are in the slots at hand and after
it. -/
def fill (frame : Frame) (nodes : List Node) : Node :=
  ⟨frame.record.nodeType, frame.record.scalars, frame.complete.reverse ++ frame.filled nodes,
    frame.record.span⟩

theorem record_ofRecord (record : Record) : (ofRecord record).record = record := rfl

theorem refs_ofRecord (record : Record) : (ofRecord record).refs = record.children := rfl

theorem fill_ofRecord (record : Record) (nodes : List Node) :
    (ofRecord record).fill nodes = record.node nodes := by
  have h : (ofRecord record).filled nodes = Record.deal record.slotRefs nodes := by
    simp only [filled, ofRecord]
    cases record.slotRefs <;> simp [Record.deal]
  simp only [fill, h]
  rfl

theorem fill_nil {frame : Frame} (h : frame.pending = []) : frame.fill [] = frame.node := by
  simp only [fill, filled, node, h, List.append_nil]

theorem refs_closeSlot {frame : Frame} {slot : String} {rest : List (String × List Nat)}
    (h : frame.pending = (slot, []) :: rest) : (frame.closeSlot slot rest).refs = frame.refs := by
  simp only [refs, closeSlot, h, List.flatMap_cons, List.nil_append]

theorem fill_closeSlot {frame : Frame} {slot : String} {rest : List (String × List Nat)}
    (h : frame.pending = (slot, []) :: rest) (nodes : List Node) :
    (frame.closeSlot slot rest).fill nodes = frame.fill nodes := by
  have hr : (frame.closeSlot slot rest).filled nodes = Record.deal rest nodes := by
    simp only [filled, closeSlot]
    cases rest <;> simp [Record.deal]
  have hf : frame.filled nodes = (slot, frame.children.reverse) :: Record.deal rest nodes := by
    simp [filled, h]
  simp only [fill, hr, hf]
  simp [closeSlot]

theorem refs_adopt (frame : Frame) (slot : String) (refs : List Nat)
    (rest : List (String × List Nat)) (node : Node) :
    ({ frame with pending := (slot, refs) :: rest }.adopt node).refs =
      refs ++ rest.flatMap (·.2) := rfl

theorem record_adopt (frame : Frame) (node : Node) : (frame.adopt node).record = frame.record := rfl

/-- A frame that has taken a child has it ahead of the nodes to come. -/
theorem fill_adopt {frame : Frame} {slot : String} {child : Nat} {refs : List Nat}
    {rest : List (String × List Nat)} (h : frame.pending = (slot, child :: refs) :: rest)
    (node : Node) (nodes : List Node) :
    ({ frame with pending := (slot, refs) :: rest }.adopt node).fill nodes =
      frame.fill (node :: nodes) := by
  simp [fill, filled, adopt, h]

end Frame

namespace Build

variable {table : Table} {root : Nat}

/-- What a build does with a finished node: it goes into the frame below or, if
there is none, it is the tree. -/
def resume (table : Table) (root : Nat) (node : Node) (unplaced : Table) :
    List Frame → Except Error (Node × Table)
  | [] => .ok (node, unplaced)
  | parent :: above => run table root ⟨parent.adopt node :: above, unplaced⟩

theorem run_of_done {build : Build} {tree : Node} {unplaced : Table}
    (h : build.step table root = .ok (.done tree unplaced)) :
    run table root build = .ok (tree, unplaced) := by
  rw [run]
  split <;> simp_all

theorem run_of_more {build next : Build} (h : build.step table root = .ok (.more next)) :
    run table root build = run table root next := by
  rw [run]
  split <;> simp_all

theorem run_of_error {build : Build} {e : Error} (h : build.step table root = .error e) :
    run table root build = .error e := by
  rw [run]
  split <;> simp_all

/-- A frame with nothing left to do hands its node on. -/
theorem run_finished {frame : Frame} {above : List Frame} {unplaced : Table}
    (h : frame.pending = []) :
    run table root ⟨frame :: above, unplaced⟩ = resume table root frame.node unplaced above := by
  cases above with
  | nil => exact run_of_done (by simp only [step, h])
  | cons parent rest => exact run_of_more (by simp only [step, h])

theorem run_closeSlot {frame : Frame} {above : List Frame} {unplaced : Table} {slot : String}
    {rest : List (String × List Nat)} (h : frame.pending = (slot, []) :: rest) :
    run table root ⟨frame :: above, unplaced⟩ =
      run table root ⟨frame.closeSlot slot rest :: above, unplaced⟩ :=
  run_of_more (by simp only [step, h])

section

variable {frame : Frame} {above : List Frame} {unplaced : Table} {slot : String} {child : Nat}
  {refs : List Nat} {rest : List (String × List Nat)}

theorem run_refused (h : frame.pending = (slot, child :: refs) :: rest)
    (hc : unplaced[child]? = none) :
    run table root ⟨frame :: above, unplaced⟩ =
      .error (refusal table frame.record.index child) := by
  refine run_of_error ?_
  simp only [step, h, hc, refusal]
  split <;> rfl

theorem run_descend {record : Record} (h : frame.pending = (slot, child :: refs) :: rest)
    (hc : unplaced[child]? = some record) :
    run table root ⟨frame :: above, unplaced⟩ =
      run table root ⟨.ofRecord record :: { frame with pending := (slot, refs) :: rest } :: above,
        unplaced.erase child⟩ :=
  run_of_more (by simp only [step, h, hc])

end

/-- A frame turns into the node of its record, filled with what its references
grow into. -/
theorem run_eq_grow (frame : Frame) (above : List Frame) (unplaced : Table) :
    run table root ⟨frame :: above, unplaced⟩ =
      match grow table frame.record.index unplaced frame.refs with
      | .error e => .error e
      | .ok (nodes, rest) => resume table root (frame.fill nodes) rest.1 above := by
  match hp : frame.pending with
  | [] =>
    have hr : frame.refs = [] := by simp [Frame.refs, hp]
    rw [run_finished hp, hr, grow, ← Frame.fill_nil hp]
  | (slot, []) :: rest =>
    have := Frame.work_closeSlot_lt hp
    rw [run_closeSlot hp, run_eq_grow, Frame.refs_closeSlot hp]
    simp only [Frame.fill_closeSlot hp]
    rfl
  | (slot, child :: refs) :: rest =>
    have hr : frame.refs = child :: (refs ++ rest.flatMap (·.2)) := by simp [Frame.refs, hp]
    cases hc : unplaced[child]? with
    | none => rw [hr, grow_refused hc, run_refused hp hc]
    | some record =>
      have hlt := size_erase_lt hc
      rw [hr, grow_descend hc]
      -- the child first, then what is left of the frame
      rw [run_descend hp hc, run_eq_grow, Frame.refs_ofRecord]
      simp only [Frame.record_ofRecord, Frame.fill_ofRecord]
      cases grow table record.index (unplaced.erase child) record.children with
      | error e => rfl
      | ok grown =>
        obtain ⟨children, inner⟩ := grown
        have hi := Nat.lt_of_le_of_lt inner.2 hlt
        simp only [resume]
        rw [run_eq_grow, Frame.refs_adopt]
        simp only [Frame.record_adopt, Frame.fill_adopt hp]
        cases grow table frame.record.index inner.1 (refs ++ rest.flatMap (·.2)) <;> rfl
termination_by (unplaced.size, frame.work)
decreasing_by
  · exact Prod.Lex.right _ this
  · exact Prod.Lex.left _ _ hlt
  · exact Prod.Lex.left _ _ hi

end Build

/-- The tree of a root is what a reference to it grows into, whichever record
makes the reference. -/
theorem grow_root {table unplaced : Table} {root : Nat} {record : Record}
    (h : unplaced[root]? = some record) (parent : Nat) :
    treeAt table unplaced root =
      match grow table parent unplaced [root] with
      | .error e => .error e
      | .ok (nodes, rest) => .ok (nodes.headD default, rest.1) := by
  simp only [treeAt, h]
  rw [grow_descend h, Build.run_eq_grow, Frame.refs_ofRecord]
  simp only [Frame.record_ofRecord, Frame.fill_ofRecord]
  cases grow table record.index (unplaced.erase root) record.children with
  | error e => rfl
  | ok grown =>
    simp only [grow, Build.resume, List.headD_cons]

end Sequence

end TreeSeq
