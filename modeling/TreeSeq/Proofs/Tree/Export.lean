import TreeSeq.Proofs.Tree.Reads

/-!
# What a tree is written as

The object of a node, name by name (`get?_exported`), and what the values in it
are read as: attributes as they are (`attribute?_toJson`), and the children in a
slot as those of them that can be read (`trees_slotJson`).
-/

namespace TreeSeq

open Json (Value)

namespace Scalar

theorem ofJson?_toJson (scalar : Scalar) : ofJson? scalar.toJson = some scalar := by
  cases scalar with
  | int n =>
    rw [toJson, ofJson?, if_pos, Int64.ofInt_toInt]
    rw [Bool.and_eq_true, decide_eq_true_iff, decide_eq_true_iff]
    exact ⟨n.minValue_le_toInt, n.toInt_le⟩
  | _ => rfl

theorem ofJson_toJson (scalar : Scalar) : Node.ofJson scalar.toJson = .error .notAnObject := by
  cases scalar <;> rw [toJson, Node.ofJson] <;> simp

theorem isItem_toJson (scalar : Scalar) : scalar.toJson.IsItem :=
  .inl ⟨scalar, scalar.ofJson?_toJson⟩

end Scalar

namespace Node

/-- The object that a node is written as. -/
def exported (node : Node) : Fields Value :=
  Fields.ofPairs (jsonFields node.nodeType node.scalars node.slots node.span
    (slotsJson Fields.ofPairs node.scalars node.slots))

/-- The array that a slot is written as. -/
def slotJson (node : Node) (slot : String) (children : List Node) : Value :=
  .array (slotLiterals node.scalars slot ++ children.map toJson)

/-- The children that can be read back, as they are read. -/
def reimported (children : List Node) : List Node :=
  children.filterMap fun child => (ofJson child.toJson).toOption

theorem toJson_eq (node : Node) : node.toJson = .object node.exported := by
  cases node
  rfl

theorem distinct_exported (node : Node) : Fields.Distinct node.exported :=
  Fields.distinct_ofPairs _

theorem nodesJson_eq (nodes : List Node) : nodesJson Fields.ofPairs nodes = nodes.map toJson := by
  induction nodes with
  | nil => rfl
  | cons node rest ih => rw [nodesJson, ih, List.map_cons, toJson]

theorem slotsJson_eq (node : Node) (slots : List (String × List Node)) :
    slotsJson Fields.ofPairs node.scalars slots =
      slots.map fun field => (field.1, node.slotJson field.1 field.2) := by
  induction slots with
  | nil => rfl
  | cons field rest ih =>
    obtain ⟨slot, children⟩ := field
    rw [slotsJson, ih, nodesJson_eq, List.map_cons, slotJson]

theorem mem_emptySlots {slots : List (String × List Node)} (hd : Fields.Distinct slots)
    {name : String} : name ∈ emptySlots slots ↔ Fields.get? slots name = some [] := by
  simp only [emptySlots, List.mem_map, List.mem_filter, List.isEmpty_iff]
  constructor
  · rintro ⟨⟨slot, children⟩, ⟨hm, rfl⟩, rfl⟩
    exact Fields.get?_of_mem hd hm
  · intro h
    exact ⟨(name, []), ⟨Fields.mem_of_get? h, rfl⟩, rfl⟩

/-- What a node has under a name in the object that it is written as. -/
theorem get?_exported {node : Node} (hn : node.NamesDistinct) (name : String) :
    Fields.get? node.exported name =
      if name = spanName then some (.ofText? node.span)
      else if name = emptySlotsName ∧ emptySlots node.slots ≠ [] then
        some (.array ((emptySlots node.slots).map .string))
      else ((Fields.get? node.slots name).map (node.slotJson name)).or
        (((Fields.get? node.scalars name).map Literal.toJson).or
          (if name = nodeTypeName then some (.string node.nodeType) else none)) := by
  have hs : Fields.Distinct (node.slots.map fun field => (field.1, node.slotJson field.1 field.2)) :=
    hn.slots.map _
  have hp : Fields.Distinct ((node.scalars.filter fun field => !Fields.has node.slots field.1).map
      fun field => (field.1, field.2.toJson)) :=
    (hn.scalars.filter _).map fun _ => Literal.toJson
  -- of several fields of one name the last counts, so the groups are tried from the end
  rw [exported, Fields.get?_ofPairs, jsonFields, slotsJson_eq]
  simp only [List.reverse_cons, List.reverse_append, Fields.get?_append, List.append_assoc,
    Fields.get?_reverse hs, Fields.get?_reverse hp]
  rw [Fields.get?_map node.slotJson, Fields.get?_map fun _ => Literal.toJson,
    Fields.get?_filter fun key => !Fields.has node.slots key]
  simp only [List.reverse_nil, Fields.get?_nil, Fields.get?_cons, Option.none_or, beq_iff_eq]
  by_cases hspan : name = spanName
  · simp [hspan]
  rw [if_neg hspan, if_neg hspan, Option.none_or]
  have hempty : Fields.get? (if (emptySlots node.slots).isEmpty then []
        else [(emptySlotsName, Value.array ((emptySlots node.slots).map .string))]).reverse name =
      if name = emptySlotsName ∧ emptySlots node.slots ≠ [] then
        some (.array ((emptySlots node.slots).map .string)) else none := by
    by_cases he : emptySlots node.slots = [] <;> simp [he, Fields.get?_cons]
  rw [hempty]
  split
  · rw [Option.some_or]
  rw [Option.none_or]
  cases hc : Fields.get? node.slots name with
  | some children => simp
  | none => simp [Fields.has, hc]

/-! ## Reading it back -/

theorem literals_scalars (scalars : List Scalar) :
    (scalars.map Scalar.toJson).filterMap Scalar.ofJson? = scalars := by
  rw [List.filterMap_map]
  simp [Scalar.ofJson?_toJson]

theorem trees_scalars (scalars : List Scalar) :
    ((scalars.map Scalar.toJson).filterMap fun item => (ofJson item).toOption) = [] := by
  rw [List.filterMap_map]
  simp [Scalar.ofJson_toJson, Except.toOption]

theorem literals_nodes (nodes : List Node) : (nodes.map toJson).filterMap Scalar.ofJson? = [] := by
  rw [List.filterMap_map]
  simp [toJson_eq, Scalar.ofJson?]

theorem items_toJson (literal : Literal) :
    literal.toJson.items = literal.scalars.map Scalar.toJson := by
  cases literal with
  | one scalar => cases scalar <;> rfl
  | many scalars => rfl

theorem literals_toJson (literal : Literal) : literal.toJson.literals = literal.scalars := by
  rw [Value.literals, items_toJson, literals_scalars]

theorem trees_toJson (literal : Literal) : literal.toJson.trees = [] := by
  rw [Value.trees, items_toJson, trees_scalars]

theorem readable_toJson (literal : Literal) : literal.toJson.Readable := by
  rw [Value.Readable, items_toJson, List.forall_mem_map]
  exact fun scalar _ => scalar.isItem_toJson

theorem attribute?_toJson (literal : Literal) : literal.toJson.attribute? = some literal := by
  cases literal with
  | one scalar => exact Value.attribute?_of_scalar scalar.ofJson?_toJson
  | many scalars =>
    have hl := literals_toJson (.many scalars)
    have ht := trees_toJson (.many scalars)
    rw [Literal.toJson] at hl ht ⊢
    rw [Value.attribute?, hl, ht, if_neg (by simp)]
    rfl

theorem slot?_toJson (literal : Literal) : literal.toJson.slot? = none := by
  rw [Value.slot?, trees_toJson, if_pos (by rfl)]

/-- The literals that are written with the children of a slot. -/
def slotScalars (node : Node) (slot : String) : List Scalar :=
  (Fields.get? node.scalars slot).elim [] Literal.scalars

section

variable (node : Node) (slot : String) (children : List Node)

theorem items_slotJson : (node.slotJson slot children).items =
    (node.slotScalars slot).map Scalar.toJson ++ children.map toJson := by
  rw [slotJson, Value.items, slotLiterals, slotScalars]
  cases Fields.get? node.scalars slot <;> rfl

theorem literals_slotJson : (node.slotJson slot children).literals = node.slotScalars slot := by
  rw [Value.literals, items_slotJson, List.filterMap_append, literals_scalars, literals_nodes,
    List.append_nil]

theorem trees_slotJson : (node.slotJson slot children).trees = reimported children := by
  rw [Value.trees, items_slotJson, List.filterMap_append, trees_scalars, List.filterMap_map,
    List.nil_append]
  rfl

theorem readable_slotJson : (node.slotJson slot children).Readable ↔
    ∀ child ∈ children, ∃ tree, ofJson child.toJson = .ok tree := by
  have hc : ∀ child : Node, child.toJson.IsItem ↔ ∃ tree, ofJson child.toJson = .ok tree := fun child =>
    ⟨fun h => h.resolve_left (by simp [toJson_eq, Scalar.ofJson?]), .inr⟩
  rw [Value.Readable, items_slotJson, List.forall_mem_append, List.forall_mem_map,
    List.forall_mem_map]
  simp only [Scalar.isItem_toJson, hc, implies_true, true_and]

theorem attribute?_slotJson : (node.slotJson slot children).attribute? =
    if node.slotScalars slot = [] ∧ reimported children ≠ [] then none
    else some (.many (node.slotScalars slot)) := by
  have ha : (node.slotJson slot children).attribute? =
      if (node.slotJson slot children).literals.isEmpty && !(node.slotJson slot children).trees.isEmpty
        then none else some (.many (node.slotJson slot children).literals) := rfl
  rw [ha, literals_slotJson, trees_slotJson]
  simp only [Bool.and_eq_true, List.isEmpty_iff, Bool.not_eq_true', List.isEmpty_eq_false_iff]

theorem slot?_slotJson : (node.slotJson slot children).slot? =
    if reimported children = [] then none else some (reimported children) := by
  rw [Value.slot?, trees_slotJson]
  simp only [List.isEmpty_iff]

end

/-! ## Name by name -/

section

variable {node : Node} {name : String}

theorem get?_exported_of_plain (hn : node.NamesDistinct) (hr : ¬ Reserved name) :
    Fields.get? node.exported name = ((Fields.get? node.slots name).map (node.slotJson name)).or
      ((Fields.get? node.scalars name).map Literal.toJson) := by
  simp only [Reserved, not_or] at hr
  rw [get?_exported hn, if_neg hr.2.1, if_neg fun h => hr.2.2 h.1, if_neg hr.1, Option.or_none]

/-- An attribute that shares its name with no slot is read back. -/
theorem attributeAt_exported (hn : node.NamesDistinct) (hr : ¬ Reserved name)
    (hs : Fields.get? node.slots name = none) :
    attributeAt node.exported name = Fields.get? node.scalars name := by
  rw [attributeAt, if_neg hr, get?_exported_of_plain hn hr, hs]
  cases Fields.get? node.scalars name with
  | none => rfl
  | some literal => exact attribute?_toJson literal

theorem slotAt_exported (hn : node.NamesDistinct) (hr : ¬ Reserved name)
    (hs : Fields.get? node.slots name = none) : slotAt node.exported name = none := by
  rw [slotAt, if_neg hr, get?_exported_of_plain hn hr, hs]
  cases Fields.get? node.scalars name with
  | none => rfl
  | some literal => exact slot?_toJson literal

/-- With a slot, the attribute of its name is read back as a list, if there is
anything to write it with. -/
theorem attributeAt_exported_of_slot (hn : node.NamesDistinct) (hr : ¬ Reserved name)
    {children : List Node} (hs : Fields.get? node.slots name = some children) :
    attributeAt node.exported name =
      if node.slotScalars name = [] ∧ reimported children ≠ [] then none
      else some (.many (node.slotScalars name)) := by
  rw [attributeAt, if_neg hr, get?_exported_of_plain hn hr, hs]
  exact attribute?_slotJson node name children

theorem slotAt_exported_of_slot (hn : node.NamesDistinct) (hr : ¬ Reserved name)
    {children : List Node} (hs : Fields.get? node.slots name = some children) :
    slotAt node.exported name =
      if reimported children = [] then none else some (reimported children) := by
  rw [slotAt, if_neg hr, get?_exported_of_plain hn hr, hs]
  exact slot?_slotJson node name children

end

end Node

end TreeSeq
