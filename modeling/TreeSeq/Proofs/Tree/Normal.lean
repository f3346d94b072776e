import TreeSeq.Proofs.Tree.Inverse

/-!
# The normal form of a document

A document in which no object lists empty slots is read as a tree that is written in the
normal form of the document: the place is given in every object, a child stands in an
array, and an array has its literals before its children. Nothing else changes but the
order of the fields in an object (`Json.Value.Alike`).

* `Json.Value.Alike.keeps`: what is like a normal form has all that is in the document;
* `Node.alike_writtenField`: what is written under a name without a meaning of its own;
* `Node.get?_exported_of_reserved`: what is written under the other names;
* `Node.toJson_alike_normal`: the whole document.
-/

namespace TreeSeq

namespace Json.Value

/-- The fields of an object, with the place of the node among them. -/
def withPlace (fields : List (String × Value)) : List (String × Value) :=
  if Fields.has fields spanName then fields else fields ++ [(spanName, null)]

mutual

/-- The normal form of a value: an object gives the place, and its children stand in
arrays; an array has its objects at the end. -/
def normal : Value → Value
  | array items => array (items.filter (!·.isObject) ++ normalObjects items)
  | object fields => object (withPlace (normalFields fields))
  | other => other

/-- The normal forms of the objects among the items. -/
def normalObjects : List Value → List Value
  | [] => []
  | item :: rest => if item.isObject then item.normal :: normalObjects rest else normalObjects rest

/-- The fields with the normal forms of their values, an object being put into an
array. -/
def normalFields : List (String × Value) → List (String × Value)
  | [] => []
  | (name, value) :: rest =>
    (name, if value.isObject then array [value.normal] else value.normal) :: normalFields rest

end

/-- The values are the same up to the order of the fields in objects. -/
inductive Alike : Value → Value → Prop where
  | refl (value : Value) : Alike value value
  | array {items others : List Value} : List.Forall₂ Alike items others →
      Alike (array items) (array others)
  | object {fields others : List (String × Value)} :
      (Fields.names fields).Perm (Fields.names others) →
      (∀ name, Option.Rel Alike (Fields.get? fields name) (Fields.get? others name)) →
      Alike (object fields) (object others)

/-- The normal form of the value of a field. -/
def normalField (value : Value) : Value :=
  if value.isObject then array [value.normal] else value.normal

/-- The normal form of an item of a field. -/
def normalItem (item : Value) : Value :=
  if item.isObject then item.normal else item

/-- One object has every field of the other, with all of its items and no more: an object
among them in its normal form, and the items in some order. -/
def Keeps (written value : Value) : Prop :=
  ∃ others fields, written = object others ∧ value = object fields ∧
    ∀ field ∈ fields, ∃ other items, Fields.get? others field.1 = some other ∧
      List.Forall₂ Alike other.items items ∧ items.Perm (field.2.items.map normalItem)

theorem normalFields_eq (fields : List (String × Value)) :
    normalFields fields = fields.map fun field => (field.1, field.2.normalField) := by
  induction fields with
  | nil => rfl
  | cons field rest ih =>
    obtain ⟨name, value⟩ := field
    rw [normalFields, ih, List.map_cons, normalField]

theorem normalField_of_not_isContainer {value : Value} (h : value.isContainer = false) :
    value.normalField = value := by
  cases value with
  | array items => cases h
  | object fields => cases h
  | _ => simp [normalField, isObject, normal]

/-- The items of a field are those of its normal form, each object in its own normal
form. -/
theorem items_normalField_perm (value : Value) :
    value.normalField.items.Perm (value.items.map normalItem) := by
  cases value with
  | array items =>
    rw [normalField, if_neg (by simp [isObject]), normal, Value.items, Value.items]
    induction items with
    | nil => exact .refl _
    | cons item rest ih =>
      rw [normalObjects, List.map_cons, normalItem]
      cases ho : item.isObject with
      | true =>
        rw [List.filter_cons_of_neg (by simp [ho]), if_pos rfl, if_pos rfl]
        exact List.perm_middle.trans (ih.cons _)
      | false =>
        rw [List.filter_cons_of_pos (by simp [ho]), if_neg (by simp), if_neg (by simp)]
        exact ih.cons _
  | object fields => exact .refl _
  | _ => simp [normalField, normalItem, isObject, normal, Value.items]

theorem distinct_withPlace {fields : List (String × Value)} (hd : Fields.Distinct fields) :
    Fields.Distinct (withPlace fields) := by
  rw [withPlace]
  split
  · exact hd
  · rename_i hn
    rw [Fields.has_iff] at hn
    rw [Fields.Distinct, Fields.names_append]
    refine List.nodup_append.mpr ⟨hd, by simp [Fields.names], fun name hm other ho he => hn ?_⟩
    rw [Fields.names_cons, Fields.names_nil, List.mem_singleton] at ho
    rwa [← ho, ← he]

theorem get?_withPlace (fields : List (String × Value)) (name : String) :
    Fields.get? (withPlace fields) name =
      (Fields.get? fields name).or (if name = spanName then some null else none) := by
  rw [withPlace]
  split
  · rename_i hn
    obtain ⟨value, hv⟩ := Fields.mem_names_iff.mp (Fields.has_iff.mp hn)
    split
    · rename_i he
      rw [he, hv, Option.some_or]
    · rw [Option.or_none]
  · rw [Fields.get?_append, Fields.get?_cons]
    simp

theorem Alike.rel_refl (value : Option Value) : Option.Rel Alike value value := by
  cases value with
  | none => exact .none
  | some value => exact .some (.refl value)

/-- Objects with distinct names are alike if they are name by name. -/
theorem Alike.of_distinct {fields others : List (String × Value)} (hd : Fields.Distinct fields)
    (hd' : Fields.Distinct others)
    (h : ∀ name, Option.Rel Alike (Fields.get? fields name) (Fields.get? others name)) :
    Alike (.object fields) (.object others) := by
  refine .object ((List.perm_ext_iff_of_nodup hd hd').mpr fun name => ?_) h
  have hr := h name
  rw [Fields.mem_names_iff, Fields.mem_names_iff]
  revert hr
  cases Fields.get? fields name <;> cases Fields.get? others name <;> simp

theorem Alike.items {value other : Value} (h : value.Alike other) :
    List.Forall₂ Alike value.items other.items := by
  cases h with
  | refl => exact List.forall₂_same.mpr fun item _ => .refl item
  | array h => exact h
  | object hn h => exact .cons (.object hn h) .nil

theorem Alike.exists_object {fields : List (String × Value)} {other : Value}
    (h : (Value.object fields).Alike other) : ∃ others, other = .object others ∧
      ∀ name, Option.Rel Alike (Fields.get? fields name) (Fields.get? others name) := by
  cases h with
  | refl => exact ⟨fields, rfl, fun name => Alike.rel_refl _⟩
  | object _ h => exact ⟨_, rfl, h⟩

/-- What is like the normal form of an object has all that is in the object. -/
theorem Alike.keeps {others fields : List (String × Value)} (hd : Fields.Distinct fields)
    (h : (Value.object others).Alike (normal (.object fields))) :
    Keeps (.object others) (.object fields) := by
  refine ⟨others, fields, rfl, rfl, fun field hm => ?_⟩
  obtain ⟨made, he, hr⟩ := h.exists_object
  obtain rfl := Value.object.inj he
  have hfield := hr field.1
  rw [normalFields_eq, get?_withPlace, Fields.get?_map fun _ => normalField,
    Fields.get?_of_mem hd hm, Option.map_some, Option.some_or] at hfield
  cases ho : Fields.get? others field.1 with
  | none =>
    rw [ho] at hfield
    cases hfield
  | some other =>
    rw [ho] at hfield
    cases hfield with
    | some ha => exact ⟨other, _, rfl, ha.items, items_normalField_perm field.2⟩

end Json.Value

theorem Scalar.toJson_of_ofJson? {value : Json.Value} {scalar : Scalar}
    (h : ofJson? value = some scalar) : scalar.toJson = value := by
  cases value with
  | number n =>
    cases n with
    | integer n =>
      rw [ofJson?] at h
      split at h
      · rename_i hn
        rw [Bool.and_eq_true, decide_eq_true_iff, decide_eq_true_iff] at hn
        rw [← Option.some.inj h, toJson, Int64.toInt_ofInt_of_le hn.1 (Int.lt_add_one_of_le hn.2)]
      · cases h
    | real x => cases h
  | array items => cases h
  | object fields => cases h
  | _ => rw [← Option.some.inj h, toJson]

namespace Node

open Json (Value)

theorem isObject_of_ofJson {value : Value} {tree : Node} (h : ofJson value = .ok tree) :
    value.isObject := by
  by_contra hn
  rw [Value.ofJson_of_not_isObject (by simpa using hn)] at h
  cases h

/-- The literals in an array are its items other than objects. -/
theorem literals_eq_filter {items : List Value} (h : ∀ item ∈ items, item.IsItem) :
    (items.filterMap Scalar.ofJson?).map Scalar.toJson = items.filter (!·.isObject) := by
  induction items with
  | nil => rfl
  | cons item rest ih =>
    obtain ⟨hitem, hrest⟩ := List.forall_mem_cons.mp h
    rcases hitem with ⟨scalar, hs⟩ | ⟨tree, ht⟩
    · have ho := Value.isObject_of_not_isContainer (Value.isContainer_of_scalar hs)
      rw [List.filterMap_cons_some hs, List.map_cons, ih hrest, Scalar.toJson_of_ofJson? hs,
        List.filter_cons_of_pos (by simp [ho])]
    · have ho := isObject_of_ofJson ht
      rw [List.filterMap_cons_none (Value.scalar_of_isObject ho), ih hrest,
        List.filter_cons_of_neg (by simp [ho])]

/-- The trees in an array are written like the normal forms of its objects, if each is
like that of its object. -/
theorem trees_alike {items : List Value} (h : ∀ item ∈ items, item.IsItem)
    (ha : ∀ item ∈ items, ∀ tree, ofJson item = .ok tree → tree.toJson.Alike item.normal) :
    List.Forall₂ Value.Alike
      ((items.filterMap fun item => (ofJson item).toOption).map toJson)
      (Value.normalObjects items) := by
  induction items with
  | nil => exact .nil
  | cons item rest ih =>
    obtain ⟨hitem, hrest⟩ := List.forall_mem_cons.mp h
    obtain ⟨hai, har⟩ := List.forall_mem_cons.mp ha
    rw [Value.normalObjects]
    rcases hitem with ⟨scalar, hs⟩ | ⟨tree, ht⟩
    · have ho := Value.isObject_of_not_isContainer (Value.isContainer_of_scalar hs)
      rw [List.filterMap_cons_none (by rw [Value.ofJson_of_not_isObject ho]; rfl),
        if_neg (by simp [ho])]
      exact ih hrest har
    · have ho := isObject_of_ofJson ht
      rw [List.filterMap_cons_some (by rw [ht]; rfl), if_pos ho]
      exact .cons (hai tree ht) (ih hrest har)

/-- What is written for what the value of a field gives a node. -/
def writtenField (value : Value) : Option Value :=
  (value.slot?.map fun children => .array
      ((value.attribute?.elim [] Literal.scalars).map Scalar.toJson ++ children.map toJson)).or
    (value.attribute?.map Literal.toJson)

/-- An array is written with its literals first. -/
theorem writtenField_array (items : List Value) :
    writtenField (.array items) = some (.array
      ((items.filterMap Scalar.ofJson?).map Scalar.toJson ++
        (items.filterMap fun item => (ofJson item).toOption).map toJson)) := by
  have hl : (Value.array items).literals = items.filterMap Scalar.ofJson? := rfl
  have ht : (Value.array items).trees = items.filterMap fun item => (ofJson item).toOption := rfl
  rw [writtenField, Value.slot?, Value.attribute?, hl, ht]
  cases items.filterMap Scalar.ofJson? <;>
    cases items.filterMap fun item => (ofJson item).toOption <;>
      simp [Literal.toJson, Literal.scalars]

/-- An object is written as the only item of an array. -/
theorem writtenField_object {fields : List (String × Value)} {tree : Node}
    (h : ofJson (.object fields) = .ok tree) :
    writtenField (.object fields) = some (.array [tree.toJson]) := by
  have ht : (Value.object fields).trees = [tree] := by
    simp [Value.trees, Value.items, h, Except.toOption]
  have ha : (Value.object fields).attribute? = none := rfl
  rw [writtenField, Value.slot?, ht, ha]
  rfl

/-- The value of a field is written in its normal form, if the trees in it are. -/
theorem alike_writtenField {value : Value} (h : value.Readable)
    (ha : ∀ item ∈ value.items, ∀ tree, ofJson item = .ok tree → tree.toJson.Alike item.normal) :
    Option.Rel Value.Alike (writtenField value) (some value.normalField) := by
  cases hc : value.isContainer with
  | false =>
    obtain ⟨scalar, hs⟩ := exists_scalar_of_readable h hc
    rw [writtenField, Value.slot?_of_not_isContainer hc, Value.attribute?_of_scalar hs,
      Value.normalField_of_not_isContainer hc]
    exact .some (by rw [Literal.toJson, Scalar.toJson_of_ofJson? hs]; exact .refl _)
  | true =>
    cases value with
    | array items =>
      rw [Value.Readable, Value.items] at h
      rw [writtenField_array, literals_eq_filter h, Value.normalField,
        if_neg (by simp [Value.isObject]), Value.normal]
      exact .some (.array (List.rel_append (List.forall₂_same.mpr fun item _ => .refl item)
        (trees_alike h ha)))
    | object fields =>
      have hitem := h (.object fields) (List.mem_singleton_self _)
      obtain ⟨tree, ht⟩ := hitem.resolve_left (by simp [Scalar.ofJson?])
      rw [writtenField_object ht, Value.normalField, if_pos (by rfl)]
      exact .some (.array (.cons (ha _ (List.mem_singleton_self _) tree ht) .nil))
    | _ => cases hc

section

variable {fields : List (String × Value)} {tree : Node}

/-- Nothing is listed where the name of the list is not given. -/
theorem listed_eq_nil (he : emptySlotsName ∉ Fields.names fields) : listed fields = [] := by
  rw [listed, Fields.get?_eq_none_iff.mpr he, Option.elim_none]

/-- Of the names without a meaning of their own each has what is written for its field. -/
theorem get?_exported_of_reads (hr : Reads fields tree) (hn : tree.NamesDistinct)
    (he : emptySlotsName ∉ Fields.names fields) {name : String} (hres : ¬ Reserved name) :
    Fields.get? tree.exported name = (Fields.get? fields name).bind writtenField := by
  have hs := hr.scalars name
  have hc := hr.slots name
  rw [listed_eq_nil he, if_neg (by simp), attributeAt, if_neg hres] at hs
  rw [listed_eq_nil he, if_neg (by simp), Option.or_none, slotAt, if_neg hres] at hc
  rw [get?_exported_of_plain hn hres, hs, hc]
  cases hv : Fields.get? fields name with
  | none => rfl
  | some value =>
    rw [hv, Option.bind_some] at hs
    rw [Option.bind_some, Option.bind_some, Option.bind_some, writtenField]
    congr 2
    funext children
    rw [slotJson, slotLiterals, hs]
    cases value.attribute? <;> rfl

theorem emptySlots_eq_nil (hr : Reads fields tree) (hn : tree.NamesDistinct)
    (he : emptySlotsName ∉ Fields.names fields) : emptySlots tree.slots = [] := by
  rw [List.eq_nil_iff_forall_not_mem]
  intro name hm
  rcases hr.exists_trees ((mem_emptySlots hn.slots).mp hm) with ⟨-, hne, -⟩ | ⟨hm, -⟩
  · exact hne rfl
  · rw [listed_eq_nil he] at hm
    cases hm

/-- Under a name with a meaning of its own the value is written as it was, and the place
is given. -/
theorem get?_exported_of_reserved (hr : Reads fields tree) (hn : tree.NamesDistinct)
    (he : emptySlotsName ∉ Fields.names fields) (hf : ∀ field ∈ fields, Accepts field.1 field.2)
    {name : String} (hres : Reserved name) :
    Fields.get? tree.exported name = ((Fields.get? fields name).map Value.normalField).or
      (if name = spanName then some .null else none) := by
  have hempty := emptySlots_eq_nil hr hn he
  have hslot : Fields.get? tree.slots name = none := by
    rw [hr.get?_slots_of_reserved hres, listed_eq_nil he, if_neg (by simp)]
  by_cases hs : name = spanName
  · rw [get?_exported hn, if_pos hs, if_pos hs, ← hr.span, hs]
    cases hv : Fields.get? fields spanName with
    | none => rfl
    | some value =>
      have ha := hf _ (Fields.mem_of_get? hv)
      rw [Accepts, if_neg (show spanName ≠ nodeTypeName by decide), if_pos rfl] at ha
      rcases ha with rfl | ⟨span, rfl⟩ <;> rfl
  rw [get?_exported hn, if_neg hs, if_neg (by simp [hempty]), hslot,
    hr.get?_scalars_of_reserved hres, Option.map_none, Option.map_none, Option.none_or,
    Option.none_or, if_neg hs, Option.or_none]
  by_cases ht : name = nodeTypeName
  · rw [if_pos ht, ht, hr.nodeType]
    rfl
  · have hl : name = emptySlotsName := (hres.resolve_left ht).resolve_left hs
    rw [if_neg ht, hl, Fields.get?_eq_none_iff.mpr he]
    rfl

end

/-- The tree that a document is read as is written like the normal form of the document. -/
theorem alike_normal_of_ofJson (value : Value) (hd : ∀ fields ∈ value.objects, Fields.Distinct fields)
    (he : ∀ fields ∈ value.objects, emptySlotsName ∉ Fields.names fields) {tree : Node}
    (h : ofJson value = .ok tree) : tree.toJson.Alike value.normal := by
  induction tree using induction_on_children generalizing value with
  | step tree ih =>
    cases value with
    | object fields =>
      rw [Value.forall_objects] at hd he
      obtain ⟨hr, hn⟩ := reads_of_ofJson hd.1 h
      obtain ⟨-, -, hf, -⟩ := ofJson_object_eq_ok_iff.mp h
      rw [toJson_eq, Value.normal, Value.normalFields_eq]
      refine .of_distinct tree.distinct_exported
        (Value.distinct_withPlace (hd.1.map fun _ => Value.normalField)) fun name => ?_
      rw [Value.get?_withPlace, Fields.get?_map fun _ => Value.normalField]
      by_cases hres : Reserved name
      · rw [get?_exported_of_reserved hr hn he.1 hf hres]
        exact Value.Alike.rel_refl _
      rw [get?_exported_of_reads hr hn he.1 hres, if_neg fun hs => hres (.inr (.inl hs)),
        Option.or_none]
      cases hv : Fields.get? fields name with
      | none => exact .none
      | some value =>
        have hm := Fields.mem_of_get? hv
        refine alike_writtenField ((accepts_of_plain hres).mp (hf _ hm)) fun item hi child hc => ?_
        have hchild := (mem_children_of_reads hr hn).mpr
          ⟨name, value, hres, hv, mem_trees.mpr ⟨item, hi, hc⟩⟩
        exact ih child hchild item (hd.2 _ hm item hi) (he.2 _ hm item hi) hc
    | _ =>
      rw [Value.ofJson_of_not_isObject rfl] at h
      cases h

/-- A document in which no object lists empty slots is written in its normal form, but
for the order of the fields in objects: so no attribute, item or child is lost. -/
theorem toJson_alike_normal (value : Value) (hd : ∀ fields ∈ value.objects, Fields.Distinct fields)
    (he : ∀ fields ∈ value.objects, emptySlotsName ∉ Fields.names fields) {tree : Node}
    (h : ofJson value = .ok tree) : tree.toJson.Alike value.normal ∧ tree.toJson.Keeps value := by
  have ha := alike_normal_of_ofJson value hd he h
  cases value with
  | object fields =>
    rw [toJson_eq] at ha ⊢
    rw [Value.forall_objects] at hd
    exact ⟨ha, ha.keeps hd.1⟩
  | _ => cases isObject_of_ofJson h

/-- A loop that gives no place: an attribute beside its child under one name, a single
child, an empty list and a null. -/
theorem toJson_alike_normal_loop :
    ∃ tree, ofJson (.object [("_nodetype", .string "For"),
        ("init", .array [.object [("_nodetype", .string "ID")], .number (.integer 3)]),
        ("cond", .object [("coord", .string "a.c:3"), ("_nodetype", .string "Or")]),
        ("quals", .array []), ("next", .null)]) = .ok tree ∧
      tree.toJson.Alike (.object [("_nodetype", .string "For"),
        ("init", .array [.number (.integer 3),
          .object [("_nodetype", .string "ID"), ("coord", .null)]]),
        ("cond", .array [.object [("coord", .string "a.c:3"), ("_nodetype", .string "Or")]]),
        ("quals", .array []), ("next", .null), ("coord", .null)]) ∧
      tree.toJson.Keeps (.object [("_nodetype", .string "For"),
        ("init", .array [.object [("_nodetype", .string "ID")], .number (.integer 3)]),
        ("cond", .object [("coord", .string "a.c:3"), ("_nodetype", .string "Or")]),
        ("quals", .array []), ("next", .null)]) :=
  ⟨_, rfl, toJson_alike_normal (.object [("_nodetype", .string "For"),
    ("init", .array [.object [("_nodetype", .string "ID")], .number (.integer 3)]),
    ("cond", .object [("coord", .string "a.c:3"), ("_nodetype", .string "Or")]),
    ("quals", .array []), ("next", .null)]) (by decide) (by decide) rfl⟩

end Node

end TreeSeq
