import TreeSeq.Tree.Import
import TreeSeq.Proofs.Fields

/-!
# When an object is read

Reading a node takes the fields of an object one by one, and stops at the first
that cannot be taken. Here the two are told apart: whether a field is accepted
(`Accepts`) and what is made of it (`Draft.take`).

* `Json.Value.induction_on_items`: the induction that goes with reading;
* `Json.Value.attribute?`, `Json.Value.slot?`: what a value gives a node under a
  name without a meaning of its own;
* `Node.ofFields_eq_ok_iff`: fields are read just if each is accepted, and then
  each is taken in turn;
* `Node.ofJson_object_eq_ok_iff`: an object is read just if it has a type and
  its fields are read.
-/

namespace TreeSeq

namespace Json.Value

/-- The items of an array; any other value is an item by itself. -/
def items : Value → List Value
  | array items => items
  | value => [value]

theorem sizeOf_le_of_mem_items {value item : Value} (h : item ∈ value.items) :
    sizeOf item ≤ sizeOf value := by
  cases value with
  | array items =>
    have := List.sizeOf_lt_of_mem (show item ∈ items from h)
    simp only [array.sizeOf_spec]
    omega
  | _ => exact Nat.le_of_eq (congrArg sizeOf (List.mem_singleton.mp h))

/-- What holds of all values but objects, and of an object whenever it holds of the items
of its fields, holds of every value. -/
@[elab_as_elim]
theorem induction_on_items {motive : Value → Prop} (value : Value)
    (other : ∀ value, value.isObject = false → motive value)
    (object : ∀ fields, (∀ field ∈ fields, ∀ item ∈ field.2.items, motive item) →
      motive (.object fields)) : motive value :=
  match value with
  | .object fields => object fields fun _ _ item _ => induction_on_items item other object
  | .null | .bool _ | .number _ | .string _ | .array _ => other _ rfl
termination_by sizeOf value
decreasing_by
  rename_i field hf hi
  have hitem := sizeOf_le_of_mem_items hi
  have hfield := List.sizeOf_lt_of_mem hf
  obtain ⟨name, content⟩ := field
  simp only [Prod.mk.sizeOf_spec, Value.object.sizeOf_spec] at *
  omega

/-- The literals among the items. -/
def literals (value : Value) : List Scalar :=
  value.items.filterMap Scalar.ofJson?

/-- The trees among the items. -/
def trees (value : Value) : List Node :=
  value.items.filterMap fun item => (Node.ofJson item).toOption

/-- The value is a literal or describes a tree. -/
def IsItem (item : Value) : Prop :=
  (∃ scalar, Scalar.ofJson? item = some scalar) ∨ ∃ tree, Node.ofJson item = .ok tree

/-- Each item is a literal or describes a tree. -/
def Readable (value : Value) : Prop :=
  ∀ item ∈ value.items, item.IsItem

/-- The attribute that the value of a field gives a node. An array of trees alone
gives none. -/
def attribute? (value : Value) : Option Literal :=
  match value with
  | array _ =>
    if value.literals.isEmpty && !value.trees.isEmpty then none else some (.many value.literals)
  | _ => value.literals.head?.map .one

/-- The children that the value of a field gives a node. -/
def slot? (value : Value) : Option (List Node) :=
  if value.trees.isEmpty then none else some value.trees

/-- The value is an array or an object. -/
def isContainer : Value → Bool
  | array _ => true
  | object _ => true
  | _ => false

/-- The texts in an array. -/
def texts : Value → List String
  | array items => items.filterMap text?
  | _ => []

/-! ## Values of one kind -/

section

variable {value : Value}

theorem scalar_of_isObject (h : value.isObject) : Scalar.ofJson? value = none := by
  cases value <;> first | rfl | cases h

theorem ofJson_of_not_isObject (h : value.isObject = false) :
    Node.ofJson value = .error .notAnObject := by
  cases value with
  | object fields => cases h
  | _ => simp [Node.ofJson]

theorem isObject_of_not_isContainer (h : value.isContainer = false) : value.isObject = false := by
  cases value <;> first | rfl | cases h

theorem items_of_not_isContainer (h : value.isContainer = false) : value.items = [value] := by
  cases value with
  | array items => cases h
  | _ => rfl

theorem trees_of_not_isContainer (h : value.isContainer = false) : value.trees = [] := by
  have ht := ofJson_of_not_isObject (isObject_of_not_isContainer h)
  simp [trees, items_of_not_isContainer h, ht, Except.toOption]

theorem isContainer_of_scalar {scalar : Scalar} (h : Scalar.ofJson? value = some scalar) :
    value.isContainer = false := by
  cases value <;> first | rfl | simp [Scalar.ofJson?] at h

theorem slot?_of_not_isContainer (h : value.isContainer = false) : value.slot? = none := by
  rw [slot?, trees_of_not_isContainer h, if_pos (by rfl)]

theorem attribute?_of_scalar {scalar : Scalar} (h : Scalar.ofJson? value = some scalar) :
    value.attribute? = some (.one scalar) := by
  have hc := isContainer_of_scalar h
  have hl : value.literals = [scalar] := by simp [literals, items_of_not_isContainer hc, h]
  have ha : value.attribute? = value.literals.head?.map .one := by
    cases value with
    | array items => cases hc
    | _ => rfl
  rw [ha, hl]
  rfl

/-- The attribute of an array is the list of its literals. If it has trees, it has
literals too. -/
theorem attribute?_of_isContainer (h : value.isContainer) {literal : Literal}
    (ha : value.attribute? = some literal) :
    literal = .many value.literals ∧ (value.literals = [] → value.trees = []) := by
  cases value with
  | array items =>
    rw [attribute?] at ha
    split at ha
    · cases ha
    rename_i hne
    exact ⟨(Option.some.inj ha).symm, fun hl => by simpa [hl] using hne⟩
  | object fields => cases ha
  | _ => cases h

end

/-! ## Texts -/

theorem texts_array_map (names : List String) : texts (array (names.map string)) = names := by
  simp only [texts, List.filterMap_map]
  exact List.filterMap_some

theorem text?_eq_some_iff {value : Value} {s : String} : text? value = some s ↔ value = string s := by
  cases value <;> simp [text?]

theorem mapM_text?_eq_some_iff {items : List Value} {names : List String} :
    items.mapM text? = some names ↔ items = names.map string := by
  induction items generalizing names with
  | nil => cases names <;> simp
  | cons item rest ih =>
    simp only [List.mapM_cons, Option.bind_eq_bind, Option.bind_eq_some_iff, ih, text?_eq_some_iff,
      Option.pure_def, Option.some.injEq]
    constructor
    · rintro ⟨name, rfl, others, rfl, rfl⟩
      rfl
    · intro h
      obtain ⟨name, others, rfl, rfl, rfl⟩ := List.map_eq_cons_iff.mp h.symm
      exact ⟨name, rfl, others, rfl, rfl⟩

end Json.Value

namespace Node

open Json (Value)

theorem scalar_ofJson_eq_ok_iff (name : String) {value : Value} {scalar : Scalar} :
    Scalar.ofJson name value = .ok scalar ↔ Scalar.ofJson? value = some scalar := by
  unfold Scalar.ofJson
  cases Scalar.ofJson? value with
  | some other => simp
  | none => cases value <;> simp

/-- An array is split if each of its items can be. -/
theorem ofItems_eq_ok_iff {name : String} {literals : List Scalar} {children : List Node}
    {items : List Value} {out : List Scalar × List Node} :
    ofItems name literals children items = .ok out ↔
      (∀ item ∈ items, item.IsItem) ∧
      out = (literals.reverse ++ items.filterMap Scalar.ofJson?,
        children.reverse ++ items.filterMap fun item => (ofJson item).toOption) := by
  induction items generalizing literals children with
  | nil => simp [ofItems, eq_comm]
  | cons item rest ih =>
    rw [ofItems, List.forall_mem_cons, List.filterMap_cons, List.filterMap_cons]
    cases ho : item.isObject with
    | true =>
      have hs := Value.scalar_of_isObject ho
      cases ht : ofJson item with
      | error e => simp [Value.IsItem, hs, ht, bind, Except.bind]
      | ok tree => simp [Value.IsItem, hs, ht, bind, Except.bind, Except.toOption, ih]
    | false =>
      have ht := Value.ofJson_of_not_isObject ho
      cases hs : Scalar.ofJson? item with
      | none =>
        cases hi : Scalar.ofJson name item with
        | ok scalar =>
          rw [scalar_ofJson_eq_ok_iff, hs] at hi
          cases hi
        | error e => simp [Value.IsItem, hs, ht, bind, Except.bind]
      | some scalar =>
        have hi := (scalar_ofJson_eq_ok_iff name).mpr hs
        simp [Value.IsItem, hs, ht, hi, bind, Except.bind, Except.toOption, ih]

/-! ## Field by field -/

/-- The value can be read under this name. -/
def Accepts (name : String) (value : Value) : Prop :=
  if name = nodeTypeName then True
  else if name = spanName then value = .null ∨ ∃ span, value = .string span
  else if name = emptySlotsName then ∃ names : List String, value = .array (names.map .string)
  else value.Readable

namespace Draft

/-- Takes the value of a field under a name without a meaning of its own. -/
def absorb (draft : Draft) (name : String) (value : Value) : Draft :=
  { draft with node := { draft.node with
      scalars := value.attribute?.elim draft.node.scalars (Fields.put draft.node.scalars name)
      slots := value.slot?.elim draft.node.slots (Fields.put draft.node.slots name) } }

/-- Takes a field that is accepted. -/
def take (draft : Draft) (field : String × Value) : Draft :=
  if field.1 = nodeTypeName then draft
  else if field.1 = spanName then { draft with node.span := field.2.text? }
  else if field.1 = emptySlotsName then { draft with emptySlots := field.2.texts }
  else draft.absorb field.1 field.2

theorem withSpan_eq_ok_iff {draft out : Draft} {value : Value} :
    draft.withSpan value = .ok out ↔ (value = .null ∨ ∃ span, value = .string span) ∧
      out = { draft with node.span := value.text? } := by
  cases value <;> simp [withSpan, Value.text?, eq_comm]

theorem withEmptySlots_eq_ok_iff {draft out : Draft} {value : Value} :
    draft.withEmptySlots value = .ok out ↔ (∃ names : List String, value = .array (names.map .string)) ∧
      out = { draft with emptySlots := value.texts } := by
  cases value with
  | array items =>
    rw [withEmptySlots]
    cases hm : items.mapM Value.text? with
    | none =>
      have hn : ¬ ∃ names : List String, Value.array items = .array (names.map .string) := by
        rintro ⟨names, he⟩
        rw [Value.array.injEq, ← Value.mapM_text?_eq_some_iff, hm] at he
        cases he
      simp only [hn, false_and, reduceCtorEq]
    | some names =>
      obtain rfl := Value.mapM_text?_eq_some_iff.mp hm
      simp [Value.texts_array_map, eq_comm]
  | _ => simp [withEmptySlots]

theorem absorb_array (draft : Draft) (name : String) (items : List Value) :
    draft.absorb name (.array items) =
      draft.withItems name (Value.array items).literals (Value.array items).trees := by
  simp only [absorb, withItems, Value.attribute?, Value.slot?]
  cases (Value.array items).literals.isEmpty <;> cases (Value.array items).trees.isEmpty <;> rfl

theorem absorb_tree (draft : Draft) (name : String) {value : Value} {tree : Node}
    (h : ofJson value = .ok tree) :
    draft.absorb name value = { draft with node := draft.node.withSlot name [tree] } := by
  cases value with
  | object fields =>
    have hl : (Value.object fields).literals = [] := rfl
    have ht : (Value.object fields).trees = [tree] := by
      simp [Value.trees, Value.items, h, Except.toOption]
    simp [absorb, Value.attribute?, Value.slot?, hl, ht, withSlot]
  | _ => simp [ofJson] at h

theorem absorb_scalar (draft : Draft) (name : String) {value : Value} {scalar : Scalar}
    (h : Scalar.ofJson? value = some scalar) :
    draft.absorb name value = { draft with node := draft.node.withScalar name (.one scalar) } := by
  rw [absorb, Value.attribute?_of_scalar h,
    Value.slot?_of_not_isContainer (Value.isContainer_of_scalar h)]
  rfl

end Draft

theorem bind_eq_ok_iff {ε α β : Type} {x : Except ε α} {f : α → Except ε β} {b : β} :
    x >>= f = .ok b ↔ ∃ a, x = .ok a ∧ f a = .ok b := by
  cases x <;> simp [bind, Except.bind]

/-- A value under a name without a meaning of its own is absorbed. -/
theorem ofFields_plain_eq_ok_iff {draft out : Draft} {name : String} {value : Value}
    {rest : List (String × Value)} (hn : name ≠ nodeTypeName) (hs : name ≠ spanName)
    (he : name ≠ emptySlotsName) :
    ofFields draft ((name, value) :: rest) = .ok out ↔
      value.Readable ∧ ofFields (draft.absorb name value) rest = .ok out := by
  rw [ofFields.eq_def]
  simp only
  rw [if_neg (by simpa using hn), if_neg (by simpa using hs), if_neg (by simpa using he)]
  cases value with
  | object fields =>
    have hr : (Value.object fields).Readable ↔ ∃ tree, ofJson (.object fields) = .ok tree := by
      simp [Value.Readable, Value.items, Value.IsItem, Scalar.ofJson?]
    rw [if_pos (by rfl), bind_eq_ok_iff, hr]
    constructor
    · rintro ⟨tree, ht, h⟩
      rw [Draft.absorb_tree draft name ht]
      exact ⟨⟨tree, ht⟩, h⟩
    · rintro ⟨⟨tree, ht⟩, h⟩
      rw [Draft.absorb_tree draft name ht] at h
      exact ⟨tree, ht, h⟩
  | array items =>
    rw [if_neg (by simp [Value.isObject])]
    simp only [bind_eq_ok_iff, ofItems_eq_ok_iff]
    rw [Draft.absorb_array]
    constructor
    · rintro ⟨_, ⟨hr, rfl⟩, _, ⟨rfl⟩, h⟩
      exact ⟨hr, h⟩
    · rintro ⟨hr, h⟩
      exact ⟨_, ⟨hr, rfl⟩, _, rfl, h⟩
  | _ =>
    rw [if_neg (by simp [Value.isObject])]
    simp only [bind_eq_ok_iff, scalar_ofJson_eq_ok_iff]
    simp only [Value.Readable, Value.items, Value.IsItem, List.forall_mem_singleton, ofJson,
      reduceCtorEq, exists_false, or_false]
    constructor
    · rintro ⟨scalar, hl, _, ⟨rfl⟩, h⟩
      rw [Draft.absorb_scalar draft name hl]
      exact ⟨⟨scalar, hl⟩, h⟩
    · rintro ⟨⟨scalar, hl⟩, h⟩
      rw [Draft.absorb_scalar draft name hl] at h
      exact ⟨scalar, hl, _, rfl, h⟩

theorem ofFields_cons_eq_ok_iff {draft out : Draft} {name : String} {value : Value}
    {rest : List (String × Value)} :
    ofFields draft ((name, value) :: rest) = .ok out ↔
      Accepts name value ∧ ofFields (draft.take (name, value)) rest = .ok out := by
  rw [Accepts, Draft.take]
  by_cases hn : name = nodeTypeName
  · rw [if_pos hn, if_pos hn, ofFields.eq_def]
    simp only
    rw [if_pos (by simpa using hn)]
    simp [bind_eq_ok_iff]
  rw [if_neg hn, if_neg hn]
  by_cases hs : name = spanName
  · rw [if_pos hs, if_pos hs, ofFields.eq_def]
    simp only
    rw [if_neg (by simpa using hn), if_pos (by simpa using hs)]
    simp [bind_eq_ok_iff, Draft.withSpan_eq_ok_iff, and_assoc]
  rw [if_neg hs, if_neg hs]
  by_cases he : name = emptySlotsName
  · rw [if_pos he, if_pos he, ofFields.eq_def]
    simp only
    rw [if_neg (by simpa using hn), if_neg (by simpa using hs), if_pos (by simpa using he)]
    simp [bind_eq_ok_iff, Draft.withEmptySlots_eq_ok_iff, and_assoc]
  rw [if_neg he, if_neg he]
  exact ofFields_plain_eq_ok_iff hn hs he

/-- Fields are read just if each is accepted, and then each is taken in turn. -/
theorem ofFields_eq_ok_iff {draft out : Draft} {fields : List (String × Value)} :
    ofFields draft fields = .ok out ↔
      (∀ field ∈ fields, Accepts field.1 field.2) ∧ out = fields.foldl Draft.take draft := by
  induction fields generalizing draft with
  | nil => simp [ofFields, eq_comm]
  | cons field rest ih =>
    rw [ofFields_cons_eq_ok_iff, ih, List.forall_mem_cons, and_assoc]
    rfl

/-! ## Objects -/

theorem typeOf?_eq_some_iff {fields : List (String × Value)} {nodeType : String} :
    typeOf? fields = some nodeType ↔
      Fields.get? fields nodeTypeName = some (.string nodeType) ∧ nodeType ≠ "" := by
  rw [typeOf?]
  split
  · rename_i found h
    rw [h, Option.some.injEq, Value.string.injEq]
    by_cases he : found = ""
    · subst he
      exact ⟨nofun, fun ⟨h, hn⟩ => absurd h.symm hn⟩
    · rw [if_neg (by simpa using he), Option.some.injEq]
      exact ⟨fun h => ⟨h, h ▸ he⟩, fun h => h.1⟩
  · rename_i hn
    exact ⟨nofun, fun ⟨h, _⟩ => absurd h (hn nodeType)⟩

theorem ofJson_object_eq_ok_iff {fields : List (String × Value)} {tree : Node} :
    ofJson (.object fields) = .ok tree ↔ ∃ nodeType, typeOf? fields = some nodeType ∧
      (∀ field ∈ fields, Accepts field.1 field.2) ∧
      tree = (fields.foldl Draft.take ⟨.ofType nodeType, []⟩).finish := by
  rw [ofJson]
  cases typeOf? fields with
  | none => simp
  | some nodeType =>
    simp only [bind_eq_ok_iff, ofFields_eq_ok_iff, Option.some.injEq]
    constructor
    · rintro ⟨_, ⟨ha, rfl⟩, ⟨rfl⟩⟩
      exact ⟨nodeType, rfl, ha, rfl⟩
    · rintro ⟨_, rfl, ha, rfl⟩
      exact ⟨_, ⟨ha, rfl⟩, rfl⟩

/-- Whether an object is read can be told field by field. -/
theorem exists_ofJson_object_iff {fields : List (String × Value)} :
    (∃ tree, ofJson (.object fields) = .ok tree) ↔
      (∃ nodeType, typeOf? fields = some nodeType) ∧ ∀ field ∈ fields, Accepts field.1 field.2 := by
  simp only [ofJson_object_eq_ok_iff]
  constructor
  · rintro ⟨_, nodeType, ht, ha, -⟩
    exact ⟨⟨nodeType, ht⟩, ha⟩
  · rintro ⟨⟨nodeType, ht⟩, ha⟩
    exact ⟨_, nodeType, ht, ha, rfl⟩

end Node

end TreeSeq
