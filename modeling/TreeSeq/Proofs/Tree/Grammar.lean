import TreeSeq.Proofs.Tree.Counting
import Mathlib.Algebra.Group.Int.Defs

/-!
# The documents that are read

A document is read just if it is a well-formed node (`Json.Value.IsNode`): an object with
a type, a place, a list of names and contents under all other names, where a content is
one entry or an array of them, and an entry is a literal or a well-formed node. What is not
read is refused with a fault that the document has (`Node.DocumentFault`).

* `Node.exists_ofJson_iff`: the documents that are read;
* `Node.refusesField_of_cons`: what refuses one field;
* `Node.documentFault_of_ofJson`: the fault of a document that is refused;
* `Node.read_iff_isNode`: all documents.
-/

namespace TreeSeq

namespace Json.Value

theorem objects_subset {fields : List (String × Value)} {field : String × Value} {item : Value}
    (hf : field ∈ fields) (hi : item ∈ field.2.items) :
    item.objects ⊆ (object fields).objects := by
  have h := (forall_objects (p := (· ∈ (object fields).objects)) fields).mp fun _ h => h
  exact fun other ho => h.2 field hf item hi other ho

/-! ## Well-formed documents -/

/-- The value is a scalar; a number is a whole one that 64 bits hold. -/
inductive IsLiteral : Value → Prop where
  | null : IsLiteral null
  | bool (b : Bool) : IsLiteral (bool b)
  | string (s : String) : IsLiteral (string s)
  | integer (n : Int) (h : -2 ^ 63 ≤ n ∧ n < 2 ^ 63) : IsLiteral (number (.integer n))

mutual

/-- The value is a well-formed node. -/
inductive IsNode : Value → Prop where
  | object {fields : List (String × Value)} (nodeType : String)
      (typed : Fields.get? fields nodeTypeName = some (.string nodeType))
      (nonempty : nodeType ≠ "")
      (span : ∀ value, (spanName, value) ∈ fields → value = .null ∨ ∃ span, value = .string span)
      (emptySlots : ∀ value, (emptySlotsName, value) ∈ fields →
        ∃ names : List String, value = .array (names.map .string))
      (others : ∀ name value, (name, value) ∈ fields → ¬ Node.Reserved name → IsContent value) :
      IsNode (.object fields)

/-- The value is an entry, or an array of entries. -/
inductive IsContent : Value → Prop where
  | entry {value : Value} (h : IsEntry value) : IsContent value
  | array {items : List Value} (h : ∀ item ∈ items, IsEntry item) : IsContent (.array items)

/-- The value is a literal or a well-formed node. -/
inductive IsEntry : Value → Prop where
  | literal {value : Value} (h : IsLiteral value) : IsEntry value
  | node {value : Value} (h : IsNode value) : IsEntry value

end

theorem isLiteral_iff {value : Value} :
    IsLiteral value ↔ ∃ scalar, Scalar.ofJson? value = some scalar := by
  have hmin : Int64.minValue.toInt = -2 ^ 63 := rfl
  have hmax : Int64.maxValue.toInt = 2 ^ 63 - 1 := rfl
  constructor
  · intro h
    cases h with
    | integer n h =>
      refine ⟨.int (.ofInt n), ?_⟩
      rw [Scalar.ofJson?, hmin, hmax, if_pos (by simp; omega)]
    | _ => exact ⟨_, rfl⟩
  · rintro ⟨scalar, h⟩
    cases value with
    | number n =>
      cases n with
      | integer n =>
        rw [Scalar.ofJson?, hmin, hmax] at h
        split at h
        · rename_i hn
          simp only [Bool.and_eq_true, decide_eq_true_eq] at hn
          exact .integer n (by omega)
        · cases h
      | real x => cases h
    | array items => cases h
    | object fields => cases h
    | null => exact .null
    | bool b => exact .bool b
    | string s => exact .string s

theorem isEntry_iff {value : Value} : IsEntry value ↔ IsLiteral value ∨ IsNode value := by
  constructor
  · intro h
    cases h with
    | literal h => exact .inl h
    | node h => exact .inr h
  · intro h
    exact h.elim .literal .node

/-- An array is no entry, so the items of an entry are the entry itself. -/
theorem isContent_iff {value : Value} : IsContent value ↔ ∀ item ∈ value.items, IsEntry item := by
  cases value with
  | array items =>
    refine ⟨fun h => ?_, .array⟩
    cases h with
    | entry h => cases h with
      | literal h => cases h
      | node h => cases h
    | array h => exact h
  | _ =>
    rw [items, List.forall_mem_singleton]
    · refine ⟨fun h => ?_, .entry⟩
      cases h with
      | entry h => exact h
    · simp

end Json.Value

namespace Node

open Json (Value)

theorem accepts_iff {name : String} {value : Value} :
    Accepts name value ↔
      (name = spanName → value = .null ∨ ∃ span, value = .string span) ∧
      (name = emptySlotsName → ∃ names : List String, value = .array (names.map .string)) ∧
      (¬ Reserved name → value.Readable) := by
  rw [Accepts]
  split_ifs with hn hs he
  · subst hn
    simp [Reserved, show nodeTypeName ≠ spanName by decide,
      show nodeTypeName ≠ emptySlotsName by decide]
  · subst hs
    simp [Reserved, show spanName ≠ emptySlotsName by decide]
  · subst he
    simp [Reserved, show emptySlotsName ≠ spanName by decide]
  · simp [Reserved, hn, hs, he]

/-- An object is a well-formed node just if it has a type and each of its fields is as it
has to be. -/
theorem isNode_object_iff {fields : List (String × Value)} :
    (Value.object fields).IsNode ↔ (∃ nodeType, typeOf? fields = some nodeType) ∧
      ∀ field ∈ fields,
        (field.1 = spanName → field.2 = .null ∨ ∃ span, field.2 = .string span) ∧
        (field.1 = emptySlotsName → ∃ names : List String, field.2 = .array (names.map .string)) ∧
        (¬ Reserved field.1 → field.2.IsContent) := by
  constructor
  · intro h
    cases h with
    | object nodeType typed nonempty span emptySlots others =>
      refine ⟨⟨nodeType, typeOf?_eq_some_iff.mpr ⟨typed, nonempty⟩⟩, fun field hf => ?_⟩
      obtain ⟨name, value⟩ := field
      refine ⟨?_, ?_, others name value hf⟩
      · rintro rfl
        exact span value hf
      · rintro rfl
        exact emptySlots value hf
  · rintro ⟨⟨nodeType, ht⟩, hf⟩
    obtain ⟨typed, nonempty⟩ := typeOf?_eq_some_iff.mp ht
    exact .object nodeType typed nonempty (fun value hm => (hf _ hm).1 rfl)
      (fun value hm => (hf _ hm).2.1 rfl) fun name value hm => (hf _ hm).2.2

/-- Just the well-formed nodes are read. -/
theorem exists_ofJson_iff (value : Value) : (∃ tree, ofJson value = .ok tree) ↔ value.IsNode := by
  induction value using Value.induction_on_items with
  | other value h =>
    rw [Value.ofJson_of_not_isObject h]
    refine iff_of_false (by simp) fun hn => ?_
    cases hn
    cases h
  | object fields ih =>
    have hcontent : ∀ field ∈ fields, (field.2.Readable ↔ field.2.IsContent) := by
      intro field hf
      rw [Value.isContent_iff, Value.Readable]
      refine forall₂_congr fun item hi => ?_
      rw [Value.isEntry_iff, Value.IsItem, ← Value.isLiteral_iff, ih field hf item hi]
    rw [exists_ofJson_object_iff, isNode_object_iff]
    refine and_congr_right fun _ => forall₂_congr fun field hf => ?_
    rw [accepts_iff, hcontent field hf]

/-! ## What is refused -/

/-- A field is not as it has to be, as the fault says. -/
inductive FieldFault (name : String) (value : Value) : TreeFault → Prop where
  | badSpan (hn : name = spanName) (h : value ≠ .null ∧ ∀ span, value ≠ .string span) :
    FieldFault name value (.badSpan value)
  | badEmptySlots (hn : name = emptySlotsName)
      (h : ∀ names : List String, value ≠ .array (names.map .string)) :
    FieldFault name value .badEmptySlots
  | unsupportedNumber {n : Json.Number} (hn : ¬ Reserved name) (hi : .number n ∈ value.items)
      (h : ¬ (Value.number n).IsLiteral) : FieldFault name value (.unsupportedNumber name n)
  | nestedLiteral {items : List Value} (hn : ¬ Reserved name) (hi : .array items ∈ value.items) :
    FieldFault name value (.nestedLiteral name)

/-- The object has no type or a field that is not as it has to be, as the fault says. -/
inductive ObjectFault (fields : List (String × Value)) : TreeFault → Prop where
  | missingNodeType (h : ∀ nodeType, Fields.get? fields nodeTypeName = some (.string nodeType) →
      nodeType = "") : ObjectFault fields .missingNodeType
  | field {field : String × Value} {fault : TreeFault} (hf : field ∈ fields)
      (h : FieldFault field.1 field.2 fault) : ObjectFault fields fault

/-- The document is no object, or an object in it is not as it has to be, as the fault
says. -/
inductive DocumentFault (value : Value) : TreeFault → Prop where
  | notAnObject (h : value.isObject = false) : DocumentFault value .notAnObject
  | object {fields : List (String × Value)} {fault : TreeFault} (hf : fields ∈ value.objects)
      (h : ObjectFault fields fault) : DocumentFault value fault

/-- A field is refused for itself, or because an object in it is refused. -/
def RefusesField (name : String) (value : Value) (fault : TreeFault) : Prop :=
  FieldFault name value fault ∨ ∃ item ∈ value.items, item.isObject ∧ ofJson item = .error fault

theorem bind_eq_error_iff {ε α β : Type} {x : Except ε α} {f : α → Except ε β} {e : ε} :
    x >>= f = .error e ↔ x = .error e ∨ ∃ a, x = .ok a ∧ f a = .error e := by
  cases x <;> simp [bind, Except.bind]

section

variable {name : String} {value : Value} {fault : TreeFault} {draft : Draft}

theorem fieldFault_of_scalar {item : Value} (hn : ¬ Reserved name) (hi : item ∈ value.items)
    (ho : item.isObject = false) (h : Scalar.ofJson name item = .error fault) :
    FieldFault name value fault := by
  unfold Scalar.ofJson at h
  cases hs : Scalar.ofJson? item with
  | some scalar => simp [hs] at h
  | none =>
    have hl : ¬ item.IsLiteral := by simp [Value.isLiteral_iff, hs]
    rw [hs] at h
    cases item with
    | number n =>
      cases h
      exact .unsupportedNumber hn hi hl
    | array items =>
      cases h
      exact .nestedLiteral hn hi
    | object fields => cases ho
    | _ => cases hs

theorem refusesField_of_ofItems (hn : ¬ Reserved name) {literals : List Scalar}
    {children : List Node} {items : List Value} (hs : items ⊆ value.items)
    (h : ofItems name literals children items = .error fault) : RefusesField name value fault := by
  induction items generalizing literals children with
  | nil => simp [ofItems] at h
  | cons item rest ih =>
    obtain ⟨hi, hrest⟩ := List.cons_subset.mp hs
    rw [ofItems] at h
    split at h
    · rename_i ho
      obtain h | ⟨child, -, h⟩ := bind_eq_error_iff.mp h
      · exact .inr ⟨item, hi, ho, h⟩
      · exact ih hrest h
    · rename_i ho
      obtain h | ⟨scalar, -, h⟩ := bind_eq_error_iff.mp h
      · exact .inl (fieldFault_of_scalar hn hi (by simpa using ho) h)
      · exact ih hrest h

theorem fieldFault_of_withSpan (h : draft.withSpan value = .error fault) :
    FieldFault spanName value fault := by
  cases value with
  | null => cases h
  | string s => cases h
  | _ =>
    cases h
    exact .badSpan rfl ⟨by simp, by simp⟩

theorem fieldFault_of_withEmptySlots (h : draft.withEmptySlots value = .error fault) :
    FieldFault emptySlotsName value fault := by
  have hf : fault = .badEmptySlots := by
    cases value with
    | array items =>
      rw [Draft.withEmptySlots] at h
      split at h
      · cases h
      · exact (Except.error.inj h).symm
    | _ => exact (Except.error.inj h).symm
  subst hf
  refine .badEmptySlots rfl fun names hv => ?_
  obtain ⟨next, hnext⟩ : ∃ next, draft.withEmptySlots value = .ok next :=
    ⟨_, Draft.withEmptySlots_eq_ok_iff.mpr ⟨⟨names, hv⟩, rfl⟩⟩
  rw [hnext] at h
  cases h

variable {rest : List (String × Value)}

theorem refusesField_of_plain (hn : ¬ Reserved name)
    (h : ofFields draft ((name, value) :: rest) = .error fault) :
    RefusesField name value fault ∨ ∃ next, ofFields next rest = .error fault := by
  have hr := hn
  simp only [Reserved, not_or] at hr
  rw [ofFields.eq_def] at h
  simp only at h
  rw [if_neg (by simpa using hr.1), if_neg (by simpa using hr.2.1),
    if_neg (by simpa using hr.2.2)] at h
  cases value with
  | object fields =>
    rw [if_pos (by rfl)] at h
    obtain h | ⟨child, -, h⟩ := bind_eq_error_iff.mp h
    · exact .inl (.inr ⟨_, List.mem_singleton_self _, rfl, h⟩)
    · exact .inr ⟨_, h⟩
  | array items =>
    rw [if_neg (by simp [Value.isObject])] at h
    obtain h | ⟨split, -, h⟩ := bind_eq_error_iff.mp h
    · exact .inl (refusesField_of_ofItems hn (List.Subset.refl _) h)
    · exact .inr ⟨_, h⟩
  | _ =>
    rw [if_neg (by simp [Value.isObject])] at h
    obtain h | ⟨scalar, -, h⟩ := bind_eq_error_iff.mp h
    · exact .inl (.inl (fieldFault_of_scalar hn (List.mem_singleton_self _) rfl h))
    · exact .inr ⟨_, h⟩

/-- Fields are refused because of the first of them or because of the others. -/
theorem refusesField_of_cons (h : ofFields draft ((name, value) :: rest) = .error fault) :
    RefusesField name value fault ∨ ∃ next, ofFields next rest = .error fault := by
  by_cases hr : Reserved name
  · rw [ofFields.eq_def] at h
    simp only at h
    obtain rfl | rfl | rfl := hr
    · rw [if_pos (by simp)] at h
      exact .inr ⟨draft, h⟩
    · rw [if_neg (by decide), if_pos (by simp)] at h
      obtain h | ⟨next, -, h⟩ := bind_eq_error_iff.mp h
      · exact .inl (.inl (fieldFault_of_withSpan h))
      · exact .inr ⟨next, h⟩
    · rw [if_neg (by decide), if_neg (by decide), if_pos (by simp)] at h
      obtain h | ⟨next, -, h⟩ := bind_eq_error_iff.mp h
      · exact .inl (.inl (fieldFault_of_withEmptySlots h))
      · exact .inr ⟨next, h⟩
  · exact refusesField_of_plain hr h

theorem refusesField_of_ofFields {fields : List (String × Value)}
    (h : ofFields draft fields = .error fault) :
    ∃ field ∈ fields, RefusesField field.1 field.2 fault := by
  induction fields generalizing draft with
  | nil => simp [ofFields] at h
  | cons field rest ih =>
    obtain h | ⟨next, h⟩ := refusesField_of_cons h
    · exact ⟨field, List.mem_cons_self, h⟩
    · obtain ⟨other, hm, hr⟩ := ih h
      exact ⟨other, List.mem_cons_of_mem _ hm, hr⟩

end

/-- What is refused has the fault that is reported. -/
theorem documentFault_of_ofJson {value : Value} {fault : TreeFault}
    (h : ofJson value = .error fault) : DocumentFault value fault := by
  induction value using Value.induction_on_items generalizing fault with
  | other value ho =>
    rw [Value.ofJson_of_not_isObject ho] at h
    cases h
    exact .notAnObject ho
  | object fields ih =>
    have hself : fields ∈ (Value.object fields).objects := by
      rw [Value.objects]
      exact List.mem_cons_self
    rw [ofJson] at h
    cases ht : typeOf? fields with
    | none =>
      rw [ht] at h
      cases h
      refine .object hself (.missingNodeType fun nodeType hn => ?_)
      by_contra hne
      rw [typeOf?_eq_some_iff.mpr ⟨hn, hne⟩] at ht
      cases ht
    | some nodeType =>
      rw [ht] at h
      obtain h | ⟨draft, -, h⟩ := bind_eq_error_iff.mp h
      · obtain ⟨field, hf, hfield | ⟨item, hi, ho, h⟩⟩ := refusesField_of_ofFields h
        · exact .object hself (.field hf hfield)
        · -- the item is an object, so the fault is that of an object in it
          cases ih field hf item hi h with
          | notAnObject hn =>
            rw [hn] at ho
            cases ho
          | object hm hobject => exact .object (Value.objects_subset hf hi hm) hobject
      · cases h

/-- Just the well-formed nodes are read. Any other document is refused with a fault that it
has. A tree that is read has as many nodes as the document has objects. -/
theorem read_iff_isNode (value : Value) :
    ((∃ tree, ofJson value = .ok tree) ↔ value.IsNode) ∧
      (¬ value.IsNode → ∃ fault, ofJson value = .error fault ∧ DocumentFault value fault) ∧
      ((∀ fields ∈ value.objects, Fields.Distinct fields) →
        ∀ tree, ofJson value = .ok tree → tree.count = value.objects.length) := by
  refine ⟨exists_ofJson_iff value, fun hn => ?_, fun hd tree h => count_of_ofJson value hd h⟩
  cases h : ofJson value with
  | ok tree => exact absurd ((exists_ofJson_iff value).mp ⟨tree, h⟩) hn
  | error fault => exact ⟨fault, rfl, documentFault_of_ofJson h⟩

/-- A call with an attribute between its children under one name, a single child and an
empty slot that is listed first. -/
theorem read_iff_isNode_call : ∃ value tree,
    value = .object [("_empty_slots", .array [.string "else"]),
      ("args", .array [.object [("_nodetype", .string "ID")], .number (.integer 3),
        .object [("coord", .null), ("_nodetype", .string "ID")]]),
      ("_nodetype", .string "Call"), ("name", .object [("_nodetype", .string "ID")]),
      ("else", .array [])] ∧
    value.IsNode ∧ ofJson value = .ok tree ∧ tree.count = 4 := by
  obtain ⟨hread, -, hcount⟩ := read_iff_isNode (.object [("_empty_slots", .array [.string "else"]),
    ("args", .array [.object [("_nodetype", .string "ID")], .number (.integer 3),
      .object [("coord", .null), ("_nodetype", .string "ID")]]),
    ("_nodetype", .string "Call"), ("name", .object [("_nodetype", .string "ID")]),
    ("else", .array [])])
  exact ⟨_, _, rfl, hread.mp ⟨_, rfl⟩, rfl, hcount (by decide) _ rfl⟩

end Node

end TreeSeq
