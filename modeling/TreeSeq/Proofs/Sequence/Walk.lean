import TreeSeq.Sequence.Encoding
import TreeSeq.Proofs.Sequence.Links
import TreeSeq.Proofs.Sequence.Listing

/-!
# What the walk through a tree gives

Encoding walks through a tree and numbers a node when it comes to it. The records are emitted
in the order in which the nodes are complete, and are sorted in the end; they are those of the
nodes in pre-order, unless a node has no type.

* `Walk.exists_run_eq`: a frame on the stack turns into the record of its node, after the
  records of the nodes that it has left to visit, or fails at the first of them that has
  no type;
* `encode_eq`: the sequence of a tree lists the records of its nodes, or the first node
  without a type is named;
* `unfolds_of_encode`: what a sequence unfolds into.
-/

namespace TreeSeq.Node

namespace WalkFrame

/-- The nodes that a frame has left to visit, apart from those below them. -/
def nodes (frame : WalkFrame) : List Node :=
  frame.pending.flatMap (·.2)

/-- The references of a frame, once the nodes that are left have their numbers. -/
def filled (frame : WalkFrame) : Fields (List Nat) :=
  match frame.pending with
  | [] => []
  | (slot, children) :: rest =>
    (slot, frame.refs.reverse ++ starts (frame.last + 1) children) ::
      slotStarts (frame.last + 1 + countNodes children) rest

/-- The record of a frame, once the nodes that are left have their numbers. -/
def fill (frame : WalkFrame) : Record :=
  ⟨frame.index, frame.node.nodeType, frame.node.scalars, frame.complete.reverse ++ frame.filled,
    frame.node.span⟩

theorem fill_enter (node : Node) (index : Nat) : (enter node index).fill = node.recordAt index := by
  have h : (enter node index).filled = slotStarts (index + 1) node.slots := by
    simp only [filled, enter]
    cases node.slots <;> simp [slotStarts]
  rw [fill, h]
  rfl

theorem last_enter (node : Node) (index : Nat) : (enter node index).last = index := rfl

theorem last_withLast (frame : WalkFrame) (last : Nat) : (frame.withLast last).last = last := rfl

theorem nodes_enter (node : Node) (index : Nat) : (enter node index).nodes = node.children := rfl

theorem fill_of_pending_nil {frame : WalkFrame} (h : frame.pending = []) :
    frame.fill = frame.record := by
  rw [fill, filled, h, List.append_nil, record]

section

variable {frame : WalkFrame} {slot : String} {children : List Node}
  {rest : List (String × List Node)}

theorem nodes_closeSlot (h : frame.pending = (slot, []) :: rest) :
    (frame.closeSlot slot rest).nodes = frame.nodes := by
  simp only [nodes, closeSlot, h, List.flatMap_cons, List.nil_append]

theorem fill_closeSlot (h : frame.pending = (slot, []) :: rest) :
    (frame.closeSlot slot rest).fill = frame.fill := by
  have hf : (frame.closeSlot slot rest).filled = slotStarts (frame.last + 1) rest := by
    simp only [filled, closeSlot]
    cases rest <;> simp [slotStarts]
  rw [fill, hf, fill, filled, h]
  simp [closeSlot, starts, countNodes]

theorem nodes_descend (frame : WalkFrame) (slot : String) (children : List Node)
    (rest : List (String × List Node)) (last : Nat) :
    ((frame.descend slot children rest).withLast last).nodes = children ++ rest.flatMap (·.2) := rfl

/-- The record of a frame is the same before and after a child. -/
theorem fill_descend {child : Node} (h : frame.pending = (slot, child :: children) :: rest) :
    ((frame.descend slot children rest).withLast (frame.last + child.count)).fill = frame.fill := by
  have hs : frame.last + child.count + 1 = frame.last + 1 + child.count := by omega
  simp only [fill, filled, withLast, descend, h, starts, countNodes, hs, List.reverse_cons,
    List.append_assoc, List.singleton_append, Nat.add_assoc]

end

end WalkFrame

namespace Walk

theorem run_of_error {walk : Walk} {e : Error} (h : walk.step = .error e) :
    run walk = .error e := by
  rw [run]
  split <;> simp_all

theorem run_of_done {walk : Walk} (h : walk.step = .ok none) : run walk = .ok walk.emitted := by
  rw [run]
  split <;> simp_all

theorem run_of_more {walk next : Walk} (h : walk.step = .ok (some next)) : run walk = run next := by
  rw [run]
  split <;> simp_all

section

variable {frame : WalkFrame} {above : List WalkFrame} {emitted : List Record} {slot : String}
  {child : Node} {children : List Node} {rest : List (String × List Node)}

/-- A frame with nothing left to do emits its record. -/
theorem run_finished (h : frame.pending = []) : run ⟨frame :: above, emitted⟩ =
    run ⟨handOn frame.last above, frame.record :: emitted⟩ :=
  run_of_more (by simp only [step, h])

theorem run_closeSlot (h : frame.pending = (slot, []) :: rest) :
    run ⟨frame :: above, emitted⟩ = run ⟨frame.closeSlot slot rest :: above, emitted⟩ :=
  run_of_more (by simp only [step, h])

theorem run_untyped (h : frame.pending = (slot, child :: children) :: rest)
    (hc : child.nodeType.isEmpty) :
    run ⟨frame :: above, emitted⟩ = .error (.tree (.untypedNode (frame.last + 1))) :=
  run_of_error (by simp only [step, h, hc, if_true])

theorem run_descend (h : frame.pending = (slot, child :: children) :: rest)
    (hc : child.nodeType.isEmpty = false) :
    run ⟨frame :: above, emitted⟩ =
      run ⟨.enter child (frame.last + 1) :: frame.descend slot children rest :: above, emitted⟩ :=
  run_of_more (by simp only [step, h, hc, Bool.false_eq_true, if_false])

end

/-- The number of the first node without a type, among nodes that are listed with what is
below them and numbered from `first` on. -/
def untypedFrom (first : Nat) (nodes : List Node) : Option Nat :=
  ((nodes.flatMap preorder).findIdx? (·.nodeType.isEmpty)).map (first + ·)

/-- A node without a type is looked for in what is below it before the nodes after it. -/
theorem untypedFrom_cons (first : Nat) (node : Node) (rest : List Node) :
    untypedFrom first (node :: rest) = if node.nodeType.isEmpty then some first
      else (untypedFrom (first + 1) node.children).or (untypedFrom (first + node.count) rest) := by
  have hc := length_flatMap_preorder node.children
  rw [untypedFrom, List.flatMap_cons, preorder_eq, List.cons_append, List.findIdx?_cons]
  split
  · rfl
  rw [List.findIdx?_append, hc, untypedFrom, untypedFrom, count_eq]
  cases (node.children.flatMap preorder).findIdx? (·.nodeType.isEmpty) with
  | some k =>
    simp only [Option.some_or, Option.map_some, Option.some.injEq]
    omega
  | none =>
    cases (rest.flatMap preorder).findIdx? (·.nodeType.isEmpty) with
    | some k =>
      simp only [Option.none_or, Option.map_some, Option.map_none, Option.some.injEq]
      omega
    | none => rfl

/-- A frame emits the records of the nodes that it has left and of what is below them, in
some order, then its own, and hands its highest number on; or it fails at the first of
these nodes without a type. -/
theorem exists_run_eq (frame : WalkFrame) (above : List WalkFrame) (emitted : List Record) :
    ∃ below : List Record, below.Perm (recordsFrom (frame.last + 1) frame.nodes) ∧
      run ⟨frame :: above, emitted⟩ = match untypedFrom (frame.last + 1) frame.nodes with
        | some i => .error (.tree (.untypedNode i))
        | none => run ⟨handOn (frame.last + countNodes frame.nodes) above,
            frame.fill :: (below ++ emitted)⟩ := by
  match hp : frame.pending with
  | [] =>
    have hn : frame.nodes = [] := by simp [WalkFrame.nodes, hp]
    refine ⟨[], by simp [recordsFrom, hn], ?_⟩
    rw [run_finished hp, hn, WalkFrame.fill_of_pending_nil hp]
    rfl
  | (slot, []) :: rest =>
    obtain ⟨below, hb, hr⟩ := exists_run_eq (frame.closeSlot slot rest) above emitted
    rw [WalkFrame.nodes_closeSlot hp] at hb hr
    rw [WalkFrame.fill_closeSlot hp] at hr
    exact ⟨below, hb, (run_closeSlot hp).trans hr⟩
  | (slot, child :: children) :: rest =>
    have hn : frame.nodes = child :: (children ++ rest.flatMap (·.2)) := by
      simp [WalkFrame.nodes, hp]
    cases hc : child.nodeType.isEmpty with
    | true =>
      refine ⟨recordsFrom (frame.last + 1) frame.nodes, .refl _, ?_⟩
      rw [run_untyped hp hc, hn, untypedFrom_cons, if_pos hc]
    | false =>
      -- the child first, then what is left of the frame
      obtain ⟨inner, hi, hr⟩ := exists_run_eq (.enter child (frame.last + 1))
        (frame.descend slot children rest :: above) emitted
      obtain ⟨later, hl, hr'⟩ := exists_run_eq
        ((frame.descend slot children rest).withLast (frame.last + child.count)) above
        (child.recordAt (frame.last + 1) :: (inner ++ emitted))
      have hcount := count_eq child
      have hlast : frame.last + 1 + countNodes child.children = frame.last + child.count := by omega
      have hfirst : frame.last + child.count + 1 = frame.last + 1 + child.count := by omega
      rw [WalkFrame.nodes_enter, WalkFrame.last_enter] at hi hr
      rw [WalkFrame.fill_enter, hlast] at hr
      rw [WalkFrame.nodes_descend, WalkFrame.last_withLast, hfirst] at hl hr'
      rw [WalkFrame.fill_descend hp] at hr'
      refine ⟨later ++ child.recordAt (frame.last + 1) :: inner, ?_, ?_⟩
      · rw [hn, recordsFrom_cons]
        exact List.perm_append_comm.trans ((hi.append hl).cons _)
      · rw [run_descend hp hc, hr, hn, untypedFrom_cons, if_neg (by simp [hc])]
        cases untypedFrom (frame.last + 1 + 1) child.children with
        | some i => rfl
        | none =>
          rw [Option.none_or, countNodes, ← Nat.add_assoc, List.append_assoc]
          exact hr'
termination_by (countNodes frame.nodes, frame.pending.length)
decreasing_by
  · refine Prod.Lex.right' _ (Nat.le_of_eq ?_) ?_
    · rw [WalkFrame.nodes_closeSlot hp]
    · simp [WalkFrame.closeSlot, hp]
  · refine Prod.Lex.left _ _ ?_
    rw [WalkFrame.nodes_enter, hn, countNodes, count_eq]
    omega
  · refine Prod.Lex.left _ _ ?_
    have := count_eq child
    rw [hn, countNodes]
    show countNodes (children ++ rest.flatMap (·.2)) < _
    omega

end Walk

/-- The records of a tree in any order are sorted by their indices. -/
theorem mergeSort_eq_records {tree : Node} {base : Nat} {emitted : List Record}
    (h : emitted.Perm (tree.records base)) :
    (emitted.mergeSort fun a b => a.index ≤ b.index) = tree.records base := by
  have hi := index_records tree base
  have ha : ((tree.records base).map (·.index)).Pairwise (· < ·) := hi ▸ List.pairwise_lt_range'
  exact Sequence.mergeSort_eq_of_perm ha.nodup h ((List.pairwise_map.mp ha).imp Nat.le_of_lt)

/-- The sequence of a tree lists the records of its nodes in pre-order. If a node has no type,
the first such node is named by the number that it would get. -/
theorem encode_eq (tree : Node) (base : Nat) :
    tree.encode base = match tree.preorder.findIdx? (·.nodeType.isEmpty) with
      | some position => .error (.tree (.untypedNode (base + position)))
      | none => .ok (tree.records base) := by
  obtain ⟨below, hb, hr⟩ := Walk.exists_run_eq (.enter tree base) [] []
  rw [WalkFrame.nodes_enter, WalkFrame.last_enter] at hb hr
  rw [WalkFrame.fill_enter] at hr
  have hp : (tree.recordAt base :: (below ++ [])).Perm (tree.records base) := by
    rw [records_eq, recordsFrom_cons]
    exact (hb.append (.refl _)).cons _
  have huntyped : Walk.untypedFrom base [tree] =
      (tree.preorder.findIdx? (·.nodeType.isEmpty)).map (base + ·) := by
    rw [Walk.untypedFrom, List.flatMap_cons, List.flatMap_nil, List.append_nil]
  have hmatch : tree.encode base = match Walk.untypedFrom base [tree] with
      | some i => .error (.tree (.untypedNode i))
      | none => .ok (tree.records base) := by
    rw [encode, Walk.untypedFrom_cons]
    split
    · rfl
    rw [hr]
    cases Walk.untypedFrom (base + 1) tree.children with
    | some i => rfl
    | none =>
      rw [← mergeSort_eq_records hp]
      simp only [Walk.handOn]
      rw [Walk.run_of_done rfl]
      rfl
  rw [hmatch, huntyped]
  cases tree.preorder.findIdx? (·.nodeType.isEmpty) <;> rfl

/-- Encoding a tree in which every node has a type gives the records of its nodes. -/
theorem encode_eq_records {tree : Node} (h : ∀ node ∈ tree.preorder, node.nodeType ≠ "")
    (base : Nat) : tree.encode base = .ok (tree.records base) := by
  have hf : tree.preorder.findIdx? (·.nodeType.isEmpty) = none := by
    simpa [List.findIdx?_eq_none_iff] using h
  rw [encode_eq, hf]

/-- Encoding succeeds only on trees in which every node has a type. -/
theorem typed_of_encode {tree : Node} {base : Nat} {sequence : Sequence}
    (h : tree.encode base = .ok sequence) : ∀ node ∈ tree.preorder, node.nodeType ≠ "" := by
  rw [encode_eq] at h
  split at h
  · cases h
  · rename_i hf
    simpa [List.findIdx?_eq_none_iff] using hf

/-- The base unfolds into the tree, with the records that the tree is encoded into, which
have consecutive indices. -/
theorem unfolds_of_encode {tree : Node} {base : Nat} {sequence : Sequence}
    (h : tree.encode base = .ok sequence) : Sequence.Unfolds [base] [tree] sequence ∧
      sequence.map (·.index) = List.range' base tree.count := by
  rw [encode_eq_records (typed_of_encode h)] at h
  obtain rfl := Except.ok.inj h
  exact ⟨unfolds_records tree base, index_records tree base⟩

end TreeSeq.Node
