import TreeSeq.Proofs.Sequence.DepthFirst
import TreeSeq.Proofs.Slots
import TreeSeq.Proofs.Tree.Children
import Mathlib.Data.List.Perm.Lattice
import Mathlib.Data.List.Nodup

/-!
# Unfolding references into trees

`Unfolds refs trees records` says, without a table and without an order of
steps, what it is for references to name trees: each reference is the index of
a record, the node has the contents of that record, and the references of the
record unfold into its children. `records` are those records in pre-order, one
for each node.

* `Unfolds.perm`: each record is named by a reference from outside or by one
  reference of another record;
* `Unfolds.unique`: within a sequence references unfold in one way;
* `Unfolds.builds_preorder`: each node of the trees, in pre-order, is built from
  its record;
* `unfolds_of_grow`, `grow_of_unfolds`: references grow into exactly the trees
  that they unfold into, provided that no record is used twice.
-/

namespace TreeSeq

namespace Record

/-- Read slot by slot, the nodes come back in order. -/
theorem flatMap_deal (slots : Fields (List Nat)) {nodes : List Node}
    (h : (slots.flatMap (·.2)).length = nodes.length) : (deal slots nodes).flatMap (·.2) = nodes := by
  induction slots generalizing nodes with
  | nil => simpa [deal, eq_comm] using h
  | cons slot rest ih =>
    have hr : (rest.flatMap (·.2)).length = (nodes.drop slot.2.length).length := by
      simp only [List.flatMap_cons, List.length_append, List.length_drop] at h ⊢
      omega
    simp [deal, ih hr]

theorem sizes_deal {slots : Fields (List Nat)} {nodes : List Node}
    (h : (slots.flatMap (·.2)).length = nodes.length) :
    Fields.sizes (deal slots nodes) = Fields.sizes slots := by
  induction slots generalizing nodes with
  | nil => rfl
  | cons slot rest ih =>
    obtain ⟨name, refs⟩ := slot
    simp only [List.flatMap_cons, List.length_append] at h
    have hl : (nodes.take refs.length).length = refs.length := by
      rw [List.length_take]
      omega
    have hr : (rest.flatMap (·.2)).length = (nodes.drop refs.length).length := by
      rw [List.length_drop]
      omega
    rw [deal, Fields.sizes_cons, Fields.sizes_cons, hl, ih hr]

theorem children_node (record : Record) {children : List Node}
    (h : record.children.length = children.length) : (record.node children).children = children :=
  flatMap_deal record.slotRefs h

end Record

namespace Sequence

/-- References unfold into trees, with the records of the nodes in pre-order. -/
inductive Unfolds : List Nat → List Node → List Record → Prop where
  | nil : Unfolds [] [] []
  | cons (record : Record) {children nodes : List Node} {below after : List Record}
      {refs : List Nat} : Unfolds record.children children below → Unfolds refs nodes after →
      Unfolds (record.index :: refs) (record.node children :: nodes) (record :: (below ++ after))

/-- Within the sequence the record stands for this node, its references for the
children. -/
def Builds (sequence : Sequence) (record : Record) (node : Node) : Prop :=
  ∃ children below, Unfolds record.children children below ∧ below ⊆ sequence ∧
    node = record.node children

namespace Unfolds

variable {refs : List Nat} {nodes : List Node} {records : List Record}

theorem append {refs' : List Nat} {nodes' : List Node} {records' : List Record}
    (h : Unfolds refs nodes records) (h' : Unfolds refs' nodes' records') :
    Unfolds (refs ++ refs') (nodes ++ nodes') (records ++ records') := by
  induction h with
  | nil => exact h'
  | cons record hb _ _ iha => simpa using Unfolds.cons record hb iha

theorem single (record : Record) {children : List Node} {below : List Record}
    (h : Unfolds record.children children below) :
    Unfolds [record.index] [record.node children] (record :: below) := by
  simpa using Unfolds.cons record h .nil

theorem length_eq (h : Unfolds refs nodes records) : refs.length = nodes.length := by
  induction h with
  | nil => rfl
  | cons record _ _ _ iha => simp [iha]

/-- There is one record for each node. -/
theorem countNodes_eq (h : Unfolds refs nodes records) : Node.countNodes nodes = records.length := by
  induction h with
  | nil => rfl
  | @cons record children nodes below after refs hb _ ihb iha =>
    have hd : Node.countSlots (Record.deal record.slotRefs children) = below.length := by
      rw [Node.countSlots_eq, Record.flatMap_deal record.slotRefs hb.length_eq, ihb]
    simp only [Node.countNodes, Record.node, Node.count, hd, iha, List.length_cons,
      List.length_append]
    omega

/-- Every record is named once: by a reference that is unfolded or by one of
another record. -/
theorem perm (h : Unfolds refs nodes records) :
    (records.map (·.index)).Perm (refs ++ records.flatMap Record.children) := by
  induction h with
  | nil => rfl
  | @cons record children nodes below after refs _ _ ihb iha =>
    simp only [List.map_cons, List.map_append, List.cons_append, List.flatMap_cons,
      List.flatMap_append]
    refine List.Perm.cons _ ((ihb.append iha).trans ?_)
    rw [← List.append_assoc record.children]
    exact List.perm_append_comm_assoc _ _ _

theorem refs_subset (h : Unfolds refs nodes records) : refs ⊆ records.map (·.index) := fun _ hi =>
  h.perm.symm.subset (List.mem_append_left _ hi)

/-- The references of a record are to records. -/
theorem children_subset (h : Unfolds refs nodes records) {record : Record} (hr : record ∈ records) :
    record.children ⊆ records.map (·.index) := fun _ hi =>
  h.perm.symm.subset (List.mem_append_right _ (List.mem_flatMap.mpr ⟨record, hr, hi⟩))

theorem uncons_node {node : Node} (h : Unfolds refs (node :: nodes) records) :
    ∃ record refs' children below after, refs = record.index :: refs' ∧
      node = record.node children ∧ records = record :: (below ++ after) ∧
      Unfolds record.children children below ∧ Unfolds refs' nodes after := by
  generalize hn : node :: nodes = all at h
  cases h with
  | nil => cases hn
  | @cons record children nodes below after refs hb ha =>
    obtain ⟨rfl, rfl⟩ := List.cons.inj hn
    exact ⟨record, refs, children, below, after, rfl, rfl, rfl, hb, ha⟩

theorem uncons_ref {i : Nat} (h : Unfolds (i :: refs) nodes records) :
    ∃ record children nodes' below after, i = record.index ∧
      nodes = record.node children :: nodes' ∧ records = record :: (below ++ after) ∧
      Unfolds record.children children below ∧ Unfolds refs nodes' after := by
  generalize hr : i :: refs = all at h
  cases h with
  | nil => cases hr
  | @cons record children nodes below after refs hb ha =>
    obtain ⟨rfl, rfl⟩ := List.cons.inj hr
    exact ⟨record, children, nodes, below, after, rfl, rfl, rfl, hb, ha⟩

/-- Within a sequence references unfold in one way. -/
theorem unique {sequence : Sequence} {nodes' : List Node} {records' : List Record}
    (hd : (sequence.map (·.index)).Nodup) (h : Unfolds refs nodes records)
    (hs : records ⊆ sequence) (h' : Unfolds refs nodes' records') (hs' : records' ⊆ sequence) :
    nodes' = nodes ∧ records' = records := by
  induction h generalizing nodes' records' with
  | nil =>
    cases h'
    exact ⟨rfl, rfl⟩
  | @cons record children nodes below after refs _ _ ihb iha =>
    obtain ⟨record', children', rest, below', after', hi, rfl, rfl, hb', ha'⟩ := h'.uncons_ref
    obtain ⟨hr, hs⟩ := List.cons_subset.mp hs
    obtain ⟨hbs, has⟩ := List.append_subset.mp hs
    obtain ⟨hr', hs'⟩ := List.cons_subset.mp hs'
    obtain ⟨hbs', has'⟩ := List.append_subset.mp hs'
    obtain rfl := List.inj_on_of_nodup_map hd hr hr' hi
    obtain ⟨rfl, rfl⟩ := ihb hbs hb' hbs'
    obtain ⟨rfl, rfl⟩ := iha has ha' has'
    exact ⟨rfl, rfl⟩

/-- The records stand for the nodes in pre-order, one for one. -/
theorem builds_preorder (h : Unfolds refs nodes records) {sequence : Sequence}
    (hs : records ⊆ sequence) :
    List.Forall₂ sequence.Builds records (nodes.flatMap Node.preorder) := by
  induction h with
  | nil => exact .nil
  | @cons record children nodes below after refs hb _ ihb iha =>
    obtain ⟨-, hs⟩ := List.cons_subset.mp hs
    obtain ⟨hbs, has⟩ := List.append_subset.mp hs
    rw [List.flatMap_cons, Node.preorder_eq, Record.children_node record hb.length_eq,
      List.cons_append]
    exact .cons ⟨children, below, hb, hbs, rfl⟩ (List.rel_append (ihb hbs) (iha has))

end Unfolds

/-! ## The records that are in no tree yet -/

/-- A table holds the records of a sequence other than those with the indices
`placed`. -/
def Holds (table : Table) (sequence : Sequence) (placed : List Nat) : Prop :=
  ∀ i record, table[i]? = some record ↔ record ∈ sequence ∧ record.index = i ∧ i ∉ placed

namespace Holds

variable {table : Table} {sequence : Sequence} {placed : List Nat}

theorem get? (h : Holds table sequence placed) {record : Record} (hr : record ∈ sequence)
    (hp : record.index ∉ placed) : table[record.index]? = some record :=
  (h _ _).mpr ⟨hr, rfl, hp⟩

theorem erase (h : Holds table sequence placed) (i : Nat) :
    Holds (table.erase i) sequence (i :: placed) := by
  intro j record
  rw [Std.HashMap.getElem?_erase]
  by_cases hij : i = j
  · simp [hij]
  · simp [hij, h j record, Ne.symm hij]

theorem congr {placed' : List Nat} (h : Holds table sequence placed)
    (hp : ∀ i, i ∈ placed ↔ i ∈ placed') : Holds table sequence placed' := by
  intro i record
  rw [h i record, hp i]

theorem contains_iff (h : Holds table sequence placed) (i : Nat) :
    table.contains i ↔ i ∈ sequence.map (·.index) ∧ i ∉ placed := by
  rw [Std.HashMap.contains_iff_mem, Std.HashMap.mem_iff_isSome_getElem?, Option.isSome_iff_exists]
  simp only [h i, List.mem_map]
  tauto

end Holds

/-- Records of a sequence, no two with one index, none with an index of
`placed`. -/
structure Fresh (sequence : Sequence) (placed : List Nat) (records : List Record) : Prop where
  subset : records ⊆ sequence
  nodup : (records.map (·.index)).Nodup
  unplaced : ∀ record ∈ records, record.index ∉ placed

theorem fresh_nil (sequence : Sequence) (placed : List Nat) : Fresh sequence placed [] :=
  ⟨by simp, by simp, by simp⟩

/-- Records are fresh if the first of them are, and the others once those are
placed. -/
theorem fresh_append {sequence : Sequence} {placed : List Nat} {a b : List Record} :
    Fresh sequence placed (a ++ b) ↔
      Fresh sequence placed a ∧ Fresh sequence (a.map (·.index) ++ placed) b := by
  constructor
  · intro ⟨hs, hd, hp⟩
    obtain ⟨has, hbs⟩ := List.append_subset.mp hs
    rw [List.map_append] at hd
    obtain ⟨had, hbd, hab⟩ := List.nodup_append.mp hd
    refine ⟨⟨has, had, fun r hr => hp r (List.mem_append_left _ hr)⟩, hbs, hbd, fun r hr => ?_⟩
    rw [List.mem_append, not_or]
    exact ⟨fun ha => hab _ ha _ (List.mem_map_of_mem hr) rfl, hp r (List.mem_append_right _ hr)⟩
  · intro ⟨⟨has, had, hap⟩, ⟨hbs, hbd, hbp⟩⟩
    simp only [List.mem_append, not_or] at hbp
    refine ⟨List.append_subset.mpr ⟨has, hbs⟩, ?_, fun r hr => ?_⟩
    · rw [List.map_append]
      refine List.nodup_append.mpr ⟨had, hbd, fun i hi j hj he => ?_⟩
      obtain ⟨r, hr, rfl⟩ := List.mem_map.mp hj
      exact (hbp r hr).1 (he ▸ hi)
    · rcases List.mem_append.mp hr with hr | hr
      · exact hap r hr
      · exact (hbp r hr).2

theorem fresh_singleton {sequence : Sequence} {placed : List Nat} {record : Record} :
    Fresh sequence placed [record] ↔ record ∈ sequence ∧ record.index ∉ placed :=
  ⟨fun ⟨hs, _, hp⟩ => ⟨hs (by simp), hp record (by simp)⟩,
    fun ⟨hs, hp⟩ => ⟨by simpa using hs, by simp, by simpa using hp⟩⟩

/-- The records of a tree and of those after it, taken apart. -/
theorem fresh_cons_append {sequence : Sequence} {placed : List Nat} {record : Record}
    {below after : List Record} :
    Fresh sequence placed (record :: (below ++ after)) ↔
      (record ∈ sequence ∧ record.index ∉ placed) ∧
      Fresh sequence (record.index :: placed) below ∧
      Fresh sequence (below.map (·.index) ++ record.index :: placed) after := by
  rw [← List.singleton_append, fresh_append, fresh_append, fresh_singleton]
  rfl

/-- References that grow unfold into the same trees, with fresh records, and
these are placed after that. -/
theorem unfolds_of_grow {table unplaced : Table} {sequence : Sequence} {parent : Nat}
    {refs placed : List Nat} {nodes : List Node} {rest : { rest : Table // rest.size ≤ unplaced.size }}
    (h : grow table parent unplaced refs = .ok (nodes, rest)) (hu : Holds unplaced sequence placed) :
    ∃ records, Unfolds refs nodes records ∧ Fresh sequence placed records ∧
      Holds rest.1 sequence (records.map (·.index) ++ placed) := by
  fun_induction grow generalizing placed nodes with
  | case1 parent unplaced =>
    cases h
    exact ⟨[], .nil, fresh_nil _ _, hu⟩
  | case2 => cases h
  | case3 => cases h
  | case4 => cases h
  | case5 parent unplaced child refs record hc children inner hi nodes' rest' hr ih₁ ih₂ =>
    cases h
    obtain ⟨hrs, rfl, hrp⟩ := (hu _ _).mp hc
    obtain ⟨below, hb, hbf, hbu⟩ := ih₁ hi (hu.erase _)
    obtain ⟨after, ha, haf, hau⟩ := ih₂ hr hbu
    refine ⟨record :: (below ++ after), hb.cons record ha,
      fresh_cons_append.mpr ⟨⟨hrs, hrp⟩, hbf, haf⟩, hau.congr fun i => ?_⟩
    simp only [List.mem_append, List.map_cons, List.map_append, List.mem_cons, List.cons_append]
    tauto

/-- References that unfold with fresh records grow into the same trees, and
these records are placed after that. -/
theorem grow_of_unfolds {sequence : Sequence} {refs : List Nat} {nodes : List Node}
    {records : List Record} (h : Unfolds refs nodes records) (table : Table) (parent : Nat)
    {unplaced : Table} {placed : List Nat} (hf : Fresh sequence placed records) (hu : Holds unplaced sequence placed) :
    ∃ rest, grow table parent unplaced refs = .ok (nodes, rest) ∧
      Holds rest.1 sequence (records.map (·.index) ++ placed) := by
  induction h generalizing unplaced parent placed with
  | nil => exact ⟨⟨unplaced, Nat.le_refl _⟩, by rw [grow], hu⟩
  | @cons record children nodes below after refs _ _ ihb iha =>
    obtain ⟨⟨hrs, hrp⟩, hbf, haf⟩ := fresh_cons_append.mp hf
    have hc := hu.get? hrs hrp
    obtain ⟨inner, hi, hiu⟩ := ihb record.index hbf (hu.erase record.index)
    obtain ⟨rest, hr, hru⟩ := iha parent haf hiu
    refine ⟨_, by rw [grow_descend hc, hi]; simp only [hr]; rfl, hru.congr fun i => ?_⟩
    simp only [List.mem_append, List.map_cons, List.map_append, List.mem_cons, List.cons_append]
    tauto

end Sequence

end TreeSeq
