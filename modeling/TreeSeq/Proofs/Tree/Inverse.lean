import TreeSeq.Proofs.Tree.Reimport

/-!
# Writing a tree that was read

Whatever a tree was read from, it is written as an object that stands for the
same tree, but for one thing: a list of empty slots may name what is no slot. A
literal under such a name is written as an array and is read back as a list, and
a slot named like the type hides the type.

* `portable_iff_listsSlots`: one object;
* `reimports_iff_listsSlots`: all objects of a value.
-/

namespace TreeSeq

namespace Json.Value

mutual

/-- The objects in a value, each before those in its fields. -/
def objects : Value → List (List (String × Value))
  | array items => objectsOfItems items
  | object fields => fields :: objectsOfFields fields
  | _ => []

/-- `objects` of each item. -/
def objectsOfItems : List Value → List (List (String × Value))
  | [] => []
  | item :: rest => item.objects ++ objectsOfItems rest

/-- `objects` of the value of each field. -/
def objectsOfFields : List (String × Value) → List (List (String × Value))
  | [] => []
  | (_, value) :: rest => value.objects ++ objectsOfFields rest

end

theorem objectsOfItems_eq (items : List Value) : objectsOfItems items = items.flatMap objects := by
  induction items with
  | nil => rfl
  | cons item rest ih => rw [objectsOfItems, ih, List.flatMap_cons]

theorem objectsOfFields_eq (fields : List (String × Value)) :
    objectsOfFields fields = fields.flatMap fun field => field.2.objects := by
  induction fields with
  | nil => rfl
  | cons field rest ih =>
    obtain ⟨name, value⟩ := field
    rw [objectsOfFields, ih, List.flatMap_cons]

theorem objects_eq (value : Value) : value.objects = value.items.flatMap objects := by
  cases value with
  | array values => rw [objects, objectsOfItems_eq, items]
  | _ => simp [items]

/-- What holds of every object in an object holds of itself and of every object
in an item of a field. -/
theorem forall_objects {p : List (String × Value) → Prop} (fields : List (String × Value)) :
    (∀ other ∈ (object fields).objects, p other) ↔
      p fields ∧ ∀ field ∈ fields, ∀ item ∈ field.2.items, ∀ other ∈ item.objects, p other := by
  rw [objects, List.forall_mem_cons, objectsOfFields_eq, List.forall_mem_flatMap]
  refine and_congr Iff.rfl (forall₂_congr fun field _ => ?_)
  rw [objects_eq, List.forall_mem_flatMap]

theorem objects_of_scalar {value : Value} {scalar : Scalar} (h : Scalar.ofJson? value = some scalar) :
    value.objects = [] := by
  have hc := isContainer_of_scalar h
  cases value with
  | array items => cases hc
  | object fields => cases hc
  | _ => rw [objects] <;> simp

end Json.Value

namespace Node

open Json (Value)

/-- Each name that an object lists as that of a slot without children is the name
of the place, or that of no field, or that of an array or an object. -/
def ListsSlots (fields : List (String × Value)) : Prop :=
  ∀ name ∈ listed fields, name = spanName ∨ (Fields.get? fields name).all Value.isContainer

instance (fields : List (String × Value)) : Decidable (ListsSlots fields) :=
  inferInstanceAs (Decidable (∀ name ∈ _, _))

theorem exists_scalar_of_readable {value : Value} (h : value.Readable)
    (hc : value.isContainer = false) : ∃ scalar, Scalar.ofJson? value = some scalar := by
  rw [Value.Readable, Value.items_of_not_isContainer hc, List.forall_mem_singleton] at h
  refine h.resolve_right ?_
  rintro ⟨tree, ht⟩
  rw [Value.ofJson_of_not_isObject (Value.isObject_of_not_isContainer hc)] at ht
  cases ht

section

variable {fields : List (String × Value)} {tree : Node}

/-- What is portable was read from an object that lists slots. -/
theorem Portable.listsSlots (h : tree.Portable) (hr : Reads fields tree)
    (hf : ∀ field ∈ fields, Accepts field.1 field.2) : ListsSlots fields := by
  intro name hm
  have hslot : name ∈ Fields.names tree.slots := by
    rw [Fields.mem_names_iff, hr.slots, if_pos hm]
    cases slotAt fields name <;> simp
  by_cases hs : name = spanName
  · exact .inl hs
  rw [Option.all_eq_true]
  refine .inr fun value hv => ?_
  by_cases he : name = emptySlotsName
  · -- what lists the names is an array
    rw [he] at hv
    rw [listed, hv, Option.elim_some] at hm
    cases value with
    | array items => rfl
    | _ => cases hm
  have hn : name ≠ nodeTypeName := fun hn => h.nodeTypeSlot (hn ▸ hslot)
  have hres : ¬ Reserved name := by simp [Reserved, hn, hs, he]
  by_contra hc
  obtain ⟨scalar, hl⟩ := exists_scalar_of_readable ((accepts_of_plain hres).mp
    (hf _ (Fields.mem_of_get? hv))) (by simpa using hc)
  have ha : Fields.get? tree.scalars name = some (.one scalar) := by
    rw [hr.scalars, attributeAt, if_neg hres, hv, Option.bind_some, Value.attribute?_of_scalar hl,
      if_neg (by simp)]
  obtain ⟨_, _, he⟩ := h.shared _ (Fields.mem_of_get? ha) hslot
  cases he

/-- In an object that lists slots, what shares its name with a slot is a list, and
not an empty one. -/
theorem ListsSlots.exists_many (h : ListsSlots fields) (hr : Reads fields tree) {name : String}
    {literal : Literal} {children : List Node} (hl : Fields.get? tree.scalars name = some literal)
    (hc : Fields.get? tree.slots name = some children) :
    ∃ scalar scalars, literal = .many (scalar :: scalars) := by
  have hres := hr.not_reserved_of_get? hl
  obtain ⟨hlist, value, hv, ha⟩ := hr.exists_attribute hl
  -- without children in the field itself it is the list that makes the slot
  have hm : value.trees = [] → name ∈ listed fields := fun ht => by
    rcases hr.exists_trees hc with ⟨-, hne, other, ho, rfl⟩ | ⟨hm, -⟩
    · rw [hv, Option.some.injEq] at ho
      exact absurd (ho ▸ ht) hne
    · exact hm
  cases hk : value.isContainer with
  | false =>
    rcases h name (hm (Value.trees_of_not_isContainer hk)) with hs | hk'
    · exact absurd (.inr (.inl hs)) hres
    · rw [hv, Option.all_some, hk] at hk'
      cases hk'
  | true =>
    obtain ⟨he, ht⟩ := Value.attribute?_of_isContainer hk ha
    cases hz : value.literals with
    | nil =>
      rw [hz] at he
      exact absurd he (hlist (hm (ht hz)))
    | cons scalar scalars => exact ⟨scalar, scalars, hz ▸ he⟩

theorem ListsSlots.portable (h : ListsSlots fields) (hr : Reads fields tree)
    (hn : tree.NamesDistinct) : tree.Portable := by
  refine ⟨hr.typed, fun name hm => ?_, fun hm => ?_, fun ⟨name, children⟩ hm hname => ?_,
    fun ⟨name, literal⟩ hm hslot => ?_⟩
  · obtain ⟨literal, hl⟩ := Fields.mem_names_iff.mp hm
    simpa only [Reserved, not_or] using hr.not_reserved_of_get? hl
  · -- the name of the type would be listed, and it is that of a text
    obtain ⟨children, hc⟩ := Fields.mem_names_iff.mp hm
    rcases hr.exists_trees hc with ⟨hres, -⟩ | ⟨hl, -⟩
    · exact hres (.inl rfl)
    rcases h _ hl with he | hc
    · exact absurd he (by decide)
    · rw [hr.nodeType] at hc
      cases hc
  · rcases hr.exists_trees (Fields.get?_of_mem hn.slots hm) with ⟨hres, -⟩ | ⟨-, he⟩
    · exact absurd (.inr hname) hres
    · exact he
  · obtain ⟨children, hc⟩ := Fields.mem_names_iff.mp hslot
    exact h.exists_many hr (Fields.get?_of_mem hn.scalars hm) hc

theorem portable_iff_listsSlots (hr : Reads fields tree) (hn : tree.NamesDistinct)
    (hf : ∀ field ∈ fields, Accepts field.1 field.2) : tree.Portable ↔ ListsSlots fields :=
  ⟨fun h => h.listsSlots hr hf, fun h => h.portable hr hn⟩

theorem mem_trees {value : Value} {child : Node} :
    child ∈ value.trees ↔ ∃ item ∈ value.items, ofJson item = .ok child := by
  have ho : ∀ item, (ofJson item).toOption = some child ↔ ofJson item = .ok child := fun item => by
    cases ofJson item <;> simp [Except.toOption]
  simp only [Value.trees, List.mem_filterMap, ho]

/-- The children of a node are the trees in its fields. -/
theorem mem_children_of_reads (hr : Reads fields tree) (hn : tree.NamesDistinct) {child : Node} :
    child ∈ tree.children ↔
      ∃ name value, ¬ Reserved name ∧ Fields.get? fields name = some value ∧ child ∈ value.trees := by
  rw [hn.mem_children_iff]
  constructor
  · intro ⟨name, children, hc, hm⟩
    rcases hr.exists_trees hc with ⟨hres, -, value, hv, rfl⟩ | ⟨-, rfl⟩
    · exact ⟨name, value, hres, hv, hm⟩
    · cases hm
  · intro ⟨name, value, hres, hv, hm⟩
    have ht : value.trees.isEmpty = false := List.isEmpty_eq_false_iff.mpr (List.ne_nil_of_mem hm)
    refine ⟨name, value.trees, ?_, hm⟩
    rw [hr.slots, slotAt, if_neg hres, hv, Option.bind_some, Value.slot?, ht, if_neg (by simp),
      Option.some_or]

/-- Under a name with a meaning of its own there are literals only. -/
theorem exists_scalar_of_reserved (hr : Reads fields tree) (hd : Fields.Distinct fields)
    {name : String} (hres : Reserved name) {value : Value} (hm : (name, value) ∈ fields)
    (ha : Accepts name value) : ∀ item ∈ value.items, ∃ scalar, Scalar.ofJson? item = some scalar := by
  have hv := Fields.get?_of_mem hd hm
  rw [Accepts] at ha
  by_cases hn : name = nodeTypeName
  · rw [hn, hr.nodeType, Option.some.injEq] at hv
    simp [← hv, Value.items, Scalar.ofJson?]
  rw [if_neg hn] at ha
  by_cases hs : name = spanName
  · rw [if_pos hs] at ha
    rcases ha with rfl | ⟨span, rfl⟩ <;> simp [Value.items, Scalar.ofJson?]
  · rw [if_neg hs, if_pos ((hres.resolve_left hn).resolve_left hs)] at ha
    obtain ⟨names, rfl⟩ := ha
    simp [Value.items, Scalar.ofJson?]

end

/-- A tree that was read comes back the same just if every object that it was
read from lists slots. -/
theorem reimports_iff_listsSlots (value : Value)
    (hd : ∀ fields ∈ value.objects, Fields.Distinct fields) {tree : Node}
    (h : ofJson value = .ok tree) :
    tree.Reimports ↔ ∀ fields ∈ value.objects, ListsSlots fields := by
  induction tree using induction_on_children generalizing value with
  | step tree ih =>
    cases value with
    | object fields =>
      rw [Value.forall_objects] at hd ⊢
      obtain ⟨hr, hn⟩ := reads_of_ofJson hd.1 h
      obtain ⟨-, -, hf, -⟩ := ofJson_object_eq_ok_iff.mp h
      rw [reimports_iff hn, portable_iff_listsSlots hr hn hf]
      refine and_congr Iff.rfl ⟨fun hc ⟨name, value⟩ hm item hi => ?_, fun ho child hm => ?_⟩
      · by_cases hres : Reserved name
        · obtain ⟨scalar, hl⟩ := exists_scalar_of_reserved hr hd.1 hres hm (hf _ hm) item hi
          rw [Value.objects_of_scalar hl]
          simp
        rcases (accepts_of_plain hres).mp (hf _ hm) item hi with ⟨scalar, hl⟩ | ⟨child, ht⟩
        · rw [Value.objects_of_scalar hl]
          simp
        · have hchild := (mem_children_of_reads hr hn).mpr ⟨name, value, hres,
            Fields.get?_of_mem hd.1 hm, mem_trees.mpr ⟨item, hi, ht⟩⟩
          exact (ih child hchild item (hd.2 _ hm item hi) ht).mp (hc child hchild)
      · obtain ⟨name, value, -, hv, ht⟩ := (mem_children_of_reads hr hn).mp hm
        obtain ⟨item, hi, ht⟩ := mem_trees.mp ht
        have hfield := Fields.mem_of_get? hv
        exact (ih child hm item (hd.2 _ hfield item hi) ht).mpr (ho _ hfield item hi)
    | _ =>
      rw [Value.ofJson_of_not_isObject rfl] at h
      cases h

/-- A block whose empty list of items is listed as an empty slot. -/
theorem reimports_iff_listsSlots_block :
    (∀ fields ∈ (Value.object [("_nodetype", .string "Block"), ("items", .array []),
      ("_empty_slots", .array [.string "items"])]).objects, Fields.Distinct fields) ∧
    ofJson (.object [("_nodetype", .string "Block"), ("items", .array []),
      ("_empty_slots", .array [.string "items"])]) = .ok ((ofType "Block").withSlot "items" []) ∧
    (((ofType "Block").withSlot "items" []).Reimports ↔
      ∀ fields ∈ (Value.object [("_nodetype", .string "Block"), ("items", .array []),
        ("_empty_slots", .array [.string "items"])]).objects, ListsSlots fields) :=
  ⟨by decide, rfl, reimports_iff_listsSlots _ (by decide) rfl⟩

/-- A literal whose name is listed comes back as a list. -/
theorem not_reimports_listed_literal :
    ∃ tree, ofJson (.object [("_nodetype", .string "Return"), ("expr", .number (.integer 5)),
      ("_empty_slots", .array [.string "expr"])]) = .ok tree ∧ ¬ tree.Reimports := by
  refine ⟨_, rfl, ?_⟩
  rintro ⟨again, ⟨rfl⟩, hs⟩
  revert hs
  decide

end Node

end TreeSeq
