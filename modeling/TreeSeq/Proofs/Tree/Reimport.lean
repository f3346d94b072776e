import TreeSeq.Proofs.Tree.Export

/-!
# Reading back a tree that was written

A tree comes back the same just if each of its nodes is portable: no name of it
gets in the way of another in the object that the node is written as.

* `reimports_iff`: one node, given its children;
* `reimports_iff_portable`: all nodes.
-/

namespace TreeSeq.Node

open Json (Value)

/-- The node can be told from the object that it is written as. -/
structure Portable (node : Node) : Prop where
  typed : node.nodeType ≠ ""
  scalars : ∀ name ∈ Fields.names node.scalars,
    name ≠ nodeTypeName ∧ name ≠ spanName ∧ name ≠ emptySlotsName
  nodeTypeSlot : nodeTypeName ∉ Fields.names node.slots
  reservedSlots : ∀ field ∈ node.slots, field.1 = spanName ∨ field.1 = emptySlotsName → field.2 = []
  shared : ∀ field ∈ node.scalars, field.1 ∈ Fields.names node.slots →
    ∃ scalar scalars, field.2 = .many (scalar :: scalars)

instance (literal : Literal) : Decidable (∃ scalar scalars, literal = .many (scalar :: scalars)) :=
  match literal with
  | .one _ => isFalse nofun
  | .many [] => isFalse nofun
  | .many (scalar :: scalars) => isTrue ⟨scalar, scalars, rfl⟩

instance (node : Node) : Decidable node.Portable :=
  decidable_of_iff (node.nodeType ≠ "" ∧
      (∀ name ∈ Fields.names node.scalars,
        name ≠ nodeTypeName ∧ name ≠ spanName ∧ name ≠ emptySlotsName) ∧
      nodeTypeName ∉ Fields.names node.slots ∧
      (∀ field ∈ node.slots, field.1 = spanName ∨ field.1 = emptySlotsName → field.2 = []) ∧
      ∀ field ∈ node.scalars, field.1 ∈ Fields.names node.slots →
        ∃ scalar scalars, field.2 = .many (scalar :: scalars))
    ⟨fun ⟨ht, hn, hs, hr, hm⟩ => ⟨ht, hn, hs, hr, hm⟩, fun ⟨ht, hn, hs, hr, hm⟩ => ⟨ht, hn, hs, hr, hm⟩⟩

/-- Reading back what the tree is written as gives the same tree. -/
def Reimports (tree : Node) : Prop :=
  ∃ again, ofJson tree.toJson = .ok again ∧ again.same tree

section

variable {node : Node}

theorem Portable.get?_scalars (h : node.Portable) {name : String} (hr : Reserved name) :
    Fields.get? node.scalars name = none := by
  rw [Fields.get?_eq_none_iff]
  intro hm
  obtain ⟨hn, hs, he⟩ := h.scalars name hm
  rcases hr with hr | hr | hr
  · exact hn hr
  · exact hs hr
  · exact he hr

theorem Portable.get?_slots (h : node.Portable) {name : String} (hr : Reserved name) :
    Fields.get? node.slots name = none ∨ Fields.get? node.slots name = some [] := by
  cases hc : Fields.get? node.slots name with
  | none => exact .inl rfl
  | some children =>
    refine .inr (congrArg some (h.reservedSlots (name, children) (Fields.mem_of_get? hc) ?_))
    exact hr.resolve_left fun hn => h.nodeTypeSlot (hn ▸ Fields.mem_names_iff.mpr ⟨children, hc⟩)

/-- A portable node is written with its type. -/
theorem Portable.get?_nodeType (h : node.Portable) (hn : node.NamesDistinct) :
    Fields.get? node.exported nodeTypeName = some (.string node.nodeType) := by
  have hs : Fields.get? node.slots nodeTypeName = none := Fields.get?_eq_none_iff.mpr h.nodeTypeSlot
  rw [get?_exported hn, if_neg (by decide), if_neg (fun h => absurd h.1 (by decide)), hs,
    h.get?_scalars (.inl rfl)]
  rfl

/-- A portable node is written with the names of its empty slots, if it has any. -/
theorem Portable.get?_emptySlots (h : node.Portable) (hn : node.NamesDistinct) :
    Fields.get? node.exported emptySlotsName =
      if emptySlots node.slots = [] then none
      else some (.array ((emptySlots node.slots).map .string)) := by
  rw [get?_exported hn, if_neg (by decide)]
  by_cases he : emptySlots node.slots = []
  · have hs : Fields.get? node.slots emptySlotsName = none := by
      refine (h.get?_slots (.inr (.inr rfl))).resolve_right fun hc => ?_
      rw [← mem_emptySlots hn.slots, he] at hc
      cases hc
    rw [if_neg fun h => h.2 he, hs, h.get?_scalars (.inr (.inr rfl)), if_neg (by decide), if_pos he]
    rfl
  · rw [if_pos ⟨rfl, he⟩, if_neg he]

theorem Portable.listed_exported (h : node.Portable) (hn : node.NamesDistinct) :
    listed node.exported = emptySlots node.slots := by
  rw [listed, h.get?_emptySlots hn]
  split
  · rename_i he
    rw [he]
    rfl
  · rw [Option.elim_some, Value.texts_array_map]

/-- The children that can be read back are related to the children just if each is. -/
theorem forall₂_reimported_iff {r : Node → Node → Prop} {children : List Node}
    (h : ∀ child ∈ children, ∃ tree, ofJson child.toJson = .ok tree) :
    List.Forall₂ r (reimported children) children ↔
      ∀ child ∈ children, ∃ again, ofJson child.toJson = .ok again ∧ r again child := by
  induction children with
  | nil => simp [reimported]
  | cons child rest ih =>
    rw [List.forall_mem_cons] at h ⊢
    obtain ⟨⟨tree, ht⟩, h⟩ := h
    have hr : reimported (child :: rest) = tree :: reimported rest := by
      simp [reimported, ht, Except.toOption]
    have hc : (∃ again, ofJson child.toJson = .ok again ∧ r again child) ↔ r tree child := by
      rw [ht]
      simp
    rw [hr, List.forall₂_cons, ih h, hc]

/-- The object of a portable node is read if the objects of its children are. -/
theorem Portable.exists_ofJson (h : node.Portable) (hn : node.NamesDistinct)
    (hc : ∀ child ∈ node.children, ∃ tree, ofJson child.toJson = .ok tree) :
    ∃ again, ofJson node.toJson = .ok again := by
  rw [toJson_eq]
  refine ⟨_, ofJson_object_eq_ok_iff.mpr ⟨node.nodeType,
    typeOf?_eq_some_iff.mpr ⟨h.get?_nodeType hn, h.typed⟩, fun ⟨name, value⟩ hf => ?_, rfl⟩⟩
  have hv := Fields.get?_of_mem node.distinct_exported hf
  simp only [Accepts]
  split_ifs with hname hspan hempty
  · rw [hspan, get?_exported hn, if_pos rfl, Option.some.injEq] at hv
    rw [← hv]
    cases node.span <;> simp [Value.ofText?]
  · rw [hempty, h.get?_emptySlots hn] at hv
    split at hv
    · cases hv
    · exact ⟨_, (Option.some.inj hv).symm⟩
  · have hr : ¬ Reserved name := by simp [Reserved, hname, hspan, hempty]
    rw [get?_exported_of_plain hn hr] at hv
    cases hs : Fields.get? node.slots name with
    | some children =>
      rw [hs, Option.map_some, Option.some_or, Option.some.injEq] at hv
      subst hv
      rw [readable_slotJson]
      exact fun child hm => hc child (mem_children_of_get? hs hm)
    | none =>
      rw [hs, Option.map_none, Option.none_or, Option.map_eq_some_iff] at hv
      obtain ⟨literal, _, rfl⟩ := hv
      exact readable_toJson literal

theorem reimported_eq_nil_iff {children : List Node}
    (h : ∀ child ∈ children, ∃ tree, ofJson child.toJson = .ok tree) :
    reimported children = [] ↔ children = [] := by
  cases children with
  | nil => simp [reimported]
  | cons child rest =>
    obtain ⟨tree, ht⟩ := h child List.mem_cons_self
    simp [reimported, ht, Except.toOption]

/-- The attributes of a portable node are read back. -/
theorem Portable.get?_scalars_of_reads (h : node.Portable) (hn : node.NamesDistinct) {again : Node}
    (hr : Reads node.exported again)
    (hread : ∀ child ∈ node.children, ∃ tree, ofJson child.toJson = .ok tree) (name : String) :
    Fields.get? again.scalars name = Fields.get? node.scalars name := by
  rw [hr.scalars, h.listed_exported hn]
  by_cases hres : Reserved name
  · rw [attributeAt, if_pos hres, h.get?_scalars hres, if_neg (by simp)]
  cases hs : Fields.get? node.slots name with
  | none =>
    have hm : name ∉ emptySlots node.slots := by simp [mem_emptySlots hn.slots, hs]
    rw [attributeAt_exported hn hres hs, if_neg fun h => hm h.1]
  | some children =>
    have he := reimported_eq_nil_iff fun child hm => hread child (mem_children_of_get? hs hm)
    rw [attributeAt_exported_of_slot hn hres hs]
    simp only [mem_emptySlots hn.slots, hs, Option.some.injEq, ne_eq, he]
    cases hl : Fields.get? node.scalars name with
    | none =>
      have hz : node.slotScalars name = [] := by rw [slotScalars, hl, Option.elim_none]
      by_cases hc : children = [] <;> simp [hz, hc]
    | some literal =>
      obtain ⟨scalar, scalars, rfl⟩ := h.shared (name, literal) (Fields.mem_of_get? hl)
        (Fields.mem_names_iff.mpr ⟨children, hs⟩)
      have hz : node.slotScalars name = scalar :: scalars := by rw [slotScalars, hl]; rfl
      simp [hz]

/-- What is read back from the slots of a portable node is related to them if it is
for each of its children. -/
theorem Portable.get?_slots_of_reads (h : node.Portable) (hn : node.NamesDistinct) {again : Node}
    (hr : Reads node.exported again) {r : Node → Node → Prop}
    (hc : ∀ child ∈ node.children, ∃ again, ofJson child.toJson = .ok again ∧ r again child)
    (name : String) :
    Option.Rel (List.Forall₂ r) (Fields.get? again.slots name) (Fields.get? node.slots name) := by
  have hm : ∀ {children}, Fields.get? node.slots name = some children →
      (name ∈ emptySlots node.slots ↔ children = []) := fun hs => by
    rw [mem_emptySlots hn.slots, hs, Option.some.injEq]
  have hnone : Fields.get? node.slots name = none → name ∉ emptySlots node.slots := fun hs => by
    simp [mem_emptySlots hn.slots, hs]
  rw [hr.slots, h.listed_exported hn]
  by_cases hres : Reserved name
  · rw [slotAt, if_pos hres, Option.none_or]
    rcases h.get?_slots hres with hs | hs
    · rw [if_neg (hnone hs), hs]
      exact .none
    · rw [if_pos ((hm hs).mpr rfl), hs]
      exact .some .nil
  cases hs : Fields.get? node.slots name with
  | none =>
    rw [slotAt_exported hn hres hs, if_neg (hnone hs)]
    exact .none
  | some children =>
    have hslot : ∀ child ∈ children, ∃ again, ofJson child.toJson = .ok again ∧ r again child :=
      fun child hm => hc child (mem_children_of_get? hs hm)
    have hread : ∀ child ∈ children, ∃ tree, ofJson child.toJson = .ok tree := fun child hm =>
      (hslot child hm).imp fun _ h => h.1
    rw [slotAt_exported_of_slot hn hres hs]
    by_cases he : children = []
    · rw [if_pos ((reimported_eq_nil_iff hread).mpr he), if_pos ((hm hs).mpr he), he]
      exact .some .nil
    · rw [if_neg (by rwa [reimported_eq_nil_iff hread]), Option.some_or]
      exact .some ((forall₂_reimported_iff hread).mpr hslot)

/-- A portable node is read back the same if its children are. -/
theorem Portable.same_of_reads (h : node.Portable) (hn : node.NamesDistinct) {again : Node}
    (hr : Reads node.exported again) (ha : again.NamesDistinct)
    (hc : ∀ child ∈ node.children, child.Reimports) : again.same node := by
  rw [same_iff ha hn]
  refine ⟨?_, ?_, h.get?_scalars_of_reads hn hr fun child hm => (hc child hm).imp fun _ h => h.1,
    h.get?_slots_of_reads hn hr hc⟩
  · have ht := hr.nodeType
    rw [h.get?_nodeType hn, Option.some.injEq, Value.string.injEq] at ht
    exact ht.symm
  · rw [← hr.span, get?_exported hn, if_pos rfl]
    cases node.span <;> rfl

/-- An attribute that is read back although a slot has its name is a list, and not
an empty one. -/
theorem exists_many_of_reads (hn : node.NamesDistinct) {again : Node} (hr : Reads node.exported again)
    (hs : again.same node) (ha : again.NamesDistinct) {name : String} {literal : Literal}
    {children : List Node} (hl : Fields.get? node.scalars name = some literal)
    (hc : Fields.get? node.slots name = some children) :
    ∃ scalar scalars, literal = .many (scalar :: scalars) := by
  obtain ⟨-, -, hscalars, hslots⟩ := (same_iff ha hn).mp hs
  have hsame := (hscalars name).trans hl
  have hchildren := hslots name
  have hres := hr.not_reserved_of_get? hsame
  have hz : node.slotScalars name = literal.scalars := by rw [slotScalars, hl, Option.elim_some]
  have hattr := attributeAt_exported_of_slot hn hres hc
  rw [hz] at hattr
  rw [hr.scalars] at hsame
  rw [hr.slots, slotAt_exported_of_slot hn hres hc, hc] at hchildren
  cases hsc : literal.scalars with
  | nil =>
    by_cases hre : reimported children = []
    · -- the name is listed, so the empty list does not count
      have hm : name ∈ listed node.exported := by
        by_contra hm
        rw [if_pos hre, if_neg hm] at hchildren
        cases hchildren
      rw [hsc, if_neg (by simp [hre])] at hattr
      rw [hattr, if_pos ⟨hm, rfl⟩] at hsame
      cases hsame
    · rw [if_pos ⟨hsc, hre⟩] at hattr
      rw [hattr, if_neg (by simp)] at hsame
      cases hsame
  | cons scalar scalars =>
    rw [hsc, if_neg (by simp)] at hattr
    rw [hattr, if_neg (by simp), Option.some.injEq] at hsame
    exact ⟨scalar, scalars, hsame.symm⟩

/-- A node that is read back the same is portable. -/
theorem portable_of_reads (hn : node.NamesDistinct) {again : Node} (hr : Reads node.exported again)
    (ha : again.NamesDistinct) (hs : again.same node) : node.Portable := by
  obtain ⟨htype, -, hscalars, hslots⟩ := (same_iff ha hn).mp hs
  refine ⟨htype ▸ hr.typed, fun name hm => ?_, fun hm => ?_, fun ⟨name, children⟩ hm hname => ?_,
    fun ⟨name, literal⟩ hm hslot => ?_⟩
  · obtain ⟨literal, hl⟩ := Fields.mem_names_iff.mp hm
    simpa only [Reserved, not_or] using hr.not_reserved_of_get? ((hscalars name).trans hl)
  · -- a slot of this name would be written over the type
    obtain ⟨children, hc⟩ := Fields.mem_names_iff.mp hm
    have ht := hr.nodeType
    rw [get?_exported hn, if_neg (by decide), if_neg fun h => absurd h.1 (by decide), hc] at ht
    cases ht
  · have hc := hslots name
    rw [hr.get?_slots_of_reserved (.inr hname), Fields.get?_of_mem hn.slots hm] at hc
    split at hc
    · rw [Option.rel_some_some, List.forall₂_nil_left_iff] at hc
      exact hc
    · cases hc
  · obtain ⟨children, hc⟩ := Fields.mem_names_iff.mp hslot
    exact exists_many_of_reads hn hr hs ha (Fields.get?_of_mem hn.scalars hm) hc

/-- The children of a node that is read back the same are read back the same. -/
theorem reimports_children_of_reads (hn : node.NamesDistinct) {again : Node}
    (hr : Reads node.exported again) (ha : again.NamesDistinct) (hs : again.same node)
    (hf : ∀ field ∈ node.exported, Accepts field.1 field.2) :
    ∀ child ∈ node.children, child.Reimports := by
  have hp := portable_of_reads hn hr ha hs
  obtain ⟨-, -, -, hslots⟩ := (same_iff ha hn).mp hs
  intro child hm
  obtain ⟨name, children, hc, hm⟩ := hn.mem_children_iff.mp hm
  have hres : ¬ Reserved name := fun hres => by
    rcases hp.get?_slots hres with h | h
    · rw [hc] at h
      cases h
    · rw [hc, Option.some.injEq] at h
      rw [h] at hm
      cases hm
  have hread : ∀ child ∈ children, ∃ tree, ofJson child.toJson = .ok tree := by
    have he : Fields.get? node.exported name = some (node.slotJson name children) := by
      rw [get?_exported_of_plain hn hres, hc]
      rfl
    exact (readable_slotJson node name children).mp
      ((accepts_of_plain hres).mp (hf _ (Fields.mem_of_get? he)))
  have hrel := hslots name
  have hne : reimported children ≠ [] := fun he => by
    rw [(reimported_eq_nil_iff hread).mp he] at hm
    cases hm
  rw [hr.slots, slotAt_exported_of_slot hn hres hc, if_neg hne, Option.some_or, hc,
    Option.rel_some_some, forall₂_reimported_iff hread] at hrel
  exact hrel child hm

/-- A node comes back the same just if it is portable and its children come back
the same. -/
theorem reimports_iff (hn : node.NamesDistinct) :
    node.Reimports ↔ node.Portable ∧ ∀ child ∈ node.children, child.Reimports := by
  constructor
  · rintro ⟨again, h, hs⟩
    rw [toJson_eq] at h
    obtain ⟨hr, ha⟩ := reads_of_ofJson node.distinct_exported h
    obtain ⟨-, -, hf, -⟩ := ofJson_object_eq_ok_iff.mp h
    exact ⟨portable_of_reads hn hr ha hs, reimports_children_of_reads hn hr ha hs hf⟩
  · rintro ⟨hp, hc⟩
    obtain ⟨again, h⟩ := hp.exists_ofJson hn fun child hm => (hc child hm).imp fun _ h => h.1
    refine ⟨again, h, ?_⟩
    rw [toJson_eq] at h
    obtain ⟨hr, ha⟩ := reads_of_ofJson node.distinct_exported h
    exact hp.same_of_reads hn hr ha hc

end

/-- A tree comes back the same just if each of its nodes is portable. -/
theorem reimports_iff_portable (tree : Node) (hn : ∀ node ∈ tree.preorder, node.NamesDistinct) :
    tree.Reimports ↔ ∀ node ∈ tree.preorder, node.Portable := by
  induction tree using induction_on_children with
  | step tree ih =>
    rw [forall_preorder] at hn ⊢
    rw [reimports_iff hn.1]
    exact and_congr Iff.rfl (forall₂_congr fun child hm => ih child hm (hn.2 child hm))

/-- A call with a literal among its arguments, and a slot named like the place. -/
theorem reimports_iff_portable_call :
    (∀ node ∈ ((((ofType "Call").withScalar "args" (.many [.int 1])).withSlot "args"
      [ofType "ID"]).withSlot "coord" []).preorder, node.NamesDistinct) ∧
    (((((ofType "Call").withScalar "args" (.many [.int 1])).withSlot "args"
      [ofType "ID"]).withSlot "coord" []).Reimports ↔
        ∀ node ∈ ((((ofType "Call").withScalar "args" (.many [.int 1])).withSlot "args"
          [ofType "ID"]).withSlot "coord" []).preorder, node.Portable) :=
  ⟨by decide, reimports_iff_portable _ (by decide)⟩

end TreeSeq.Node
