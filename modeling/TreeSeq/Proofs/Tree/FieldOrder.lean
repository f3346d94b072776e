import TreeSeq.Proofs.Tree.Normal

/-!
# The order of fields

A document is read field by field, but what is read does not depend on the order of the
fields, in whatever objects they stand: not on where the names of empty slots are listed
either. Each object says what its node has name by name (`Node.Reads`), so documents are
compared name by name as well.

* `Json.Value.Alike.of_perm`: objects whose fields stand in another order;
* `Node.ContentAlike`: values of a field that give a node the same;
* `Node.FieldsAlike.readAlike`: one object, given the trees in its fields;
* `Node.same_of_alike`: the whole document.
-/

namespace TreeSeq

namespace Json.Value

namespace Alike

variable {value other : Value}

theorem text?_eq (h : value.Alike other) : value.text? = other.text? := by
  cases h <;> rfl

theorem scalar_eq (h : value.Alike other) : Scalar.ofJson? value = Scalar.ofJson? other := by
  cases h <;> rfl

theorem isObject_eq (h : value.Alike other) : value.isObject = other.isObject := by
  cases h <;> rfl

/-- Fields may be put in another order, and then their values be replaced by values that
are alike. -/
theorem of_perm {fields middle others : List (String × Value)} (hd : Fields.Distinct fields)
    (hp : fields.Perm middle)
    (h : List.Forall₂ (fun a b : String × Value => a.1 = b.1 ∧ a.2.Alike b.2) middle others) :
    (Value.object fields).Alike (.object others) := by
  obtain ⟨hnames, hrel⟩ : Fields.names middle = Fields.names others ∧
      ∀ name, Option.Rel Alike (Fields.get? middle name) (Fields.get? others name) := by
    clear hp
    induction h with
    | nil => exact ⟨rfl, fun _ => .none⟩
    | @cons field other _ _ hf _ ih =>
      obtain ⟨name, value⟩ := field
      obtain ⟨_, again⟩ := other
      obtain ⟨rfl, hv⟩ := hf
      refine ⟨congrArg (name :: ·) ih.1, fun key => ?_⟩
      rw [Fields.get?_cons, Fields.get?_cons]
      split
      · exact .some hv
      · exact ih.2 key
  refine .object ((hp.map _).trans (.of_eq hnames)) fun name => ?_
  rw [Fields.get?_of_perm hd hp]
  exact hrel name

/-- What is collected from the items does not tell like values apart, if it does not tell
like items apart. -/
theorem filterMap_eq {α : Type} {f : Value → Option α} (hf : ∀ {x y}, x.Alike y → f x = f y)
    {items others : List Value} (h : List.Forall₂ Alike items others) :
    items.filterMap f = others.filterMap f := by
  induction h with
  | nil => rfl
  | cons hi _ ih => rw [List.filterMap_cons, List.filterMap_cons, hf hi, ih]

theorem literals_eq (h : value.Alike other) : value.literals = other.literals :=
  filterMap_eq scalar_eq h.items

theorem texts_eq (h : value.Alike other) : value.texts = other.texts := by
  cases h with
  | refl => rfl
  | array h => exact filterMap_eq text?_eq h
  | object _ _ => rfl

theorem mapM_text?_eq {items others : List Value} (h : List.Forall₂ Alike items others) :
    items.mapM text? = others.mapM text? := by
  induction h with
  | nil => rfl
  | cons hi _ ih => rw [List.mapM_cons, List.mapM_cons, hi.text?_eq, ih]

theorem exists_texts_iff (h : value.Alike other) :
    (∃ names : List String, value = .array (names.map .string)) ↔
      ∃ names : List String, other = .array (names.map .string) := by
  cases h with
  | refl => exact Iff.rfl
  | array h => simp only [array.injEq, ← mapM_text?_eq_some_iff, mapM_text?_eq h]
  | object _ _ => simp only [reduceCtorEq]

theorem span_iff (h : value.Alike other) :
    (value = .null ∨ ∃ span, value = .string span) ↔
      (other = .null ∨ ∃ span, other = .string span) := by
  cases h with
  | refl => exact Iff.rfl
  | array _ => simp only [reduceCtorEq, exists_false]
  | object _ _ => simp only [reduceCtorEq, exists_false]

end Alike

end Json.Value

namespace Node

open Json (Value)

/-- Either both values are read, as the same tree, or neither is. -/
def ReadAlike (value other : Value) : Prop :=
  Option.Rel (fun tree again : Node => tree.same again) (ofJson value).toOption
    (ofJson other).toOption

theorem readAlike_iff {value other : Value} : ReadAlike value other ↔
    ((∃ tree, ofJson value = .ok tree) ↔ ∃ tree, ofJson other = .ok tree) ∧
      ∀ a b, ofJson value = .ok a → ofJson other = .ok b → a.same b := by
  rw [ReadAlike]
  cases ofJson value <;> cases ofJson other <;> simp [Except.toOption]

/-- Two items are alike, and so are the trees that they are read as. -/
structure ItemAlike (item other : Value) : Prop where
  alike : item.Alike other
  read : ReadAlike item other

theorem ItemAlike.isItem_iff {item other : Value} (h : ItemAlike item other) :
    item.IsItem ↔ other.IsItem := by
  rw [Value.IsItem, Value.IsItem, h.alike.scalar_eq, (readAlike_iff.mp h.read).1]

theorem forall_isItem_iff {items others : List Value} (h : List.Forall₂ ItemAlike items others) :
    (∀ item ∈ items, item.IsItem) ↔ ∀ item ∈ others, item.IsItem := by
  induction h with
  | nil => simp
  | cons hi _ ih => rw [List.forall_mem_cons, List.forall_mem_cons, hi.isItem_iff, ih]

/-- Two values of a field are alike, and so are their items. -/
structure ContentAlike (value other : Value) : Prop where
  alike : value.Alike other
  items : List.Forall₂ ItemAlike value.items other.items

namespace ContentAlike

variable {value other : Value}

theorem trees (h : ContentAlike value other) :
    List.Forall₂ (fun tree again : Node => tree.same again) value.trees other.trees :=
  List.rel_filterMap (fun _ _ h => h.read) h.items

theorem isEmpty_trees (h : ContentAlike value other) :
    value.trees.isEmpty = other.trees.isEmpty := by
  have ht := h.trees
  revert ht
  cases value.trees <;> cases other.trees <;> simp

theorem attribute?_eq (h : ContentAlike value other) : value.attribute? = other.attribute? := by
  have hl := h.alike.literals_eq
  have ht := h.isEmpty_trees
  obtain ⟨ha, -⟩ := h
  cases ha with
  | refl => rfl
  | array _ => rw [Value.attribute?, Value.attribute?, hl, ht]
  | object _ _ => rfl

theorem slot? (h : ContentAlike value other) :
    Option.Rel (List.Forall₂ fun tree again : Node => tree.same again) value.slot? other.slot? := by
  rw [Value.slot?, Value.slot?, h.isEmpty_trees]
  split
  · exact .none
  · exact .some h.trees

theorem readable_iff (h : ContentAlike value other) : value.Readable ↔ other.Readable :=
  forall_isItem_iff h.items

theorem accepts_iff (h : ContentAlike value other) (name : String) :
    Accepts name value ↔ Accepts name other := by
  rw [Accepts, Accepts, h.alike.span_iff, h.alike.exists_texts_iff, h.readable_iff]

end ContentAlike

/-! ## Objects -/

/-- The contents of two objects are alike name by name. -/
def FieldsAlike (fields others : List (String × Value)) : Prop :=
  ∀ name, Option.Rel ContentAlike (Fields.get? fields name) (Fields.get? others name)

theorem rel_cases {α β : Type} {r : α → β → Prop} {x : Option α} {y : Option β}
    (h : Option.Rel r x y) :
    (x = none ∧ y = none) ∨ ∃ a b, x = some a ∧ y = some b ∧ r a b := by
  cases h with
  | none => exact .inl ⟨rfl, rfl⟩
  | some h => exact .inr ⟨_, _, rfl, rfl, h⟩

namespace FieldsAlike

variable {fields others : List (String × Value)}

/-- What is made of one field is the same in both objects. -/
theorem congr_get? (h : FieldsAlike fields others) {α : Type} {f : Option Value → α}
    (hf : ∀ {x y}, ContentAlike x y → f (some x) = f (some y)) (name : String) :
    f (Fields.get? fields name) = f (Fields.get? others name) := by
  obtain ⟨hx, hy⟩ | ⟨value, other, hx, hy, hc⟩ := rel_cases (h name)
  · rw [hx, hy]
  · rw [hx, hy]
    exact hf hc

theorem text_eq (h : FieldsAlike fields others) (name : String) :
    (Fields.get? fields name).bind Value.text? = (Fields.get? others name).bind Value.text? :=
  h.congr_get? (f := (·.bind Value.text?)) (fun hc => hc.alike.text?_eq) name

theorem listed_eq (h : FieldsAlike fields others) : listed fields = listed others :=
  h.congr_get? (f := (·.elim [] Value.texts)) (fun hc => hc.alike.texts_eq) emptySlotsName

theorem attributeAt_eq (h : FieldsAlike fields others) (name : String) :
    attributeAt fields name = attributeAt others name := by
  rw [attributeAt, attributeAt]
  split
  · rfl
  · exact h.congr_get? (f := (·.bind Value.attribute?)) ContentAlike.attribute?_eq name

theorem slotAt (h : FieldsAlike fields others) (name : String) :
    Option.Rel (List.Forall₂ fun tree again : Node => tree.same again) (slotAt fields name)
      (slotAt others name) := by
  rw [Node.slotAt, Node.slotAt]
  split
  · exact .none
  obtain ⟨hx, hy⟩ | ⟨value, other, hx, hy, hc⟩ := rel_cases (h name)
  · rw [hx, hy]
    exact .none
  · rw [hx, hy]
    exact hc.slot?

theorem typeOf?_eq (h : FieldsAlike fields others) : typeOf? fields = typeOf? others := by
  have htext : ∀ (fields : List (String × Value)) (nodeType : String),
      Fields.get? fields nodeTypeName = some (.string nodeType) ↔
        (Fields.get? fields nodeTypeName).bind Value.text? = some nodeType := fun fields nodeType => by
    simp only [Option.bind_eq_some_iff, Value.text?_eq_some_iff, exists_eq_right]
  refine Option.ext fun nodeType => ?_
  rw [typeOf?_eq_some_iff, typeOf?_eq_some_iff, htext, htext, h.text_eq]

theorem accepts_iff (h : FieldsAlike fields others) (hd : Fields.Distinct fields)
    (hd' : Fields.Distinct others) :
    (∀ field ∈ fields, Accepts field.1 field.2) ↔ ∀ field ∈ others, Accepts field.1 field.2 := by
  rw [Fields.forall_mem_iff hd, Fields.forall_mem_iff hd']
  refine forall_congr' fun name => ?_
  obtain ⟨hx, hy⟩ | ⟨value, other, hx, hy, hc⟩ := rel_cases (h name)
  · rw [hx, hy]
  · simp only [hx, hy, Option.mem_some_iff, forall_eq', hc.accepts_iff]

/-- The nodes that such objects are read as agree name by name. -/
theorem same_of_reads (h : FieldsAlike fields others) {tree again : Node} (hr : Reads fields tree)
    (hn : tree.NamesDistinct) (hr' : Reads others again) (hn' : again.NamesDistinct) :
    tree.same again := by
  rw [same_iff hn hn']
  refine ⟨?_, ?_, fun name => ?_, fun name => ?_⟩
  · have ht := h.text_eq nodeTypeName
    rw [hr.nodeType, hr'.nodeType] at ht
    exact Option.some.inj ht
  · rw [← hr.span, ← hr'.span, h.text_eq]
  · rw [hr.scalars, hr'.scalars, h.attributeAt_eq, h.listed_eq]
  · rw [hr.slots, hr'.slots, h.listed_eq]
    obtain ⟨hx, hy⟩ | ⟨children, again, hx, hy, hc⟩ := rel_cases (h.slotAt name)
    · -- the slot is there in both nodes or in neither, as the name is listed or not
      rw [hx, hy]
      split
      · exact .some .nil
      · exact .none
    · rw [hx, hy]
      exact .some hc

theorem readAlike (h : FieldsAlike fields others) (hd : Fields.Distinct fields)
    (hd' : Fields.Distinct others) : ReadAlike (.object fields) (.object others) := by
  rw [readAlike_iff]
  constructor
  · rw [exists_ofJson_object_iff, exists_ofJson_object_iff, h.typeOf?_eq, h.accepts_iff hd hd']
  · intro tree again ht ha
    obtain ⟨hr, hn⟩ := reads_of_ofJson hd ht
    obtain ⟨hr', hn'⟩ := reads_of_ofJson hd' ha
    exact h.same_of_reads hr hn hr' hn'

end FieldsAlike

/-- Values that are the same up to the order of fields are read as the same tree, or neither
is read. -/
theorem readAlike_of_alike (value : Value) {other : Value} (h : value.Alike other)
    (hv : ∀ fields ∈ value.objects, Fields.Distinct fields)
    (ho : ∀ fields ∈ other.objects, Fields.Distinct fields) : ReadAlike value other := by
  induction value using Value.induction_on_items generalizing other with
  | other value hf =>
    have hf' : other.isObject = false := h.isObject_eq ▸ hf
    rw [ReadAlike, Value.ofJson_of_not_isObject hf, Value.ofJson_of_not_isObject hf']
    exact .none
  | object fields ih =>
    obtain ⟨others, rfl, hrel⟩ := h.exists_object
    rw [Value.forall_objects] at hv ho
    suffices hf : FieldsAlike fields others from hf.readAlike hv.1 ho.1
    intro name
    obtain ⟨hx, hy⟩ | ⟨content, again, hx, hy, hc⟩ := rel_cases (hrel name)
    · rw [hx, hy]
      exact .none
    have hm := Fields.mem_of_get? hx
    have hm' := Fields.mem_of_get? hy
    rw [hx, hy]
    -- the items of the two contents stand at the same positions
    refine .some ⟨hc, List.forall₂_iff_get.mpr ⟨hc.items.length_eq, fun i hi hi' => ?_⟩⟩
    have hitem := hc.items.get hi hi'
    exact ⟨hitem, ih _ hm _ (List.get_mem _ _) hitem (hv.2 _ hm _ (List.get_mem _ _))
      (ho.2 _ hm' _ (List.get_mem _ _))⟩

/-- The order of the fields in objects counts neither for whether a document is read nor for
the tree that it is read as. -/
theorem same_of_alike {value other : Value} (h : value.Alike other)
    (hv : ∀ fields ∈ value.objects, Fields.Distinct fields)
    (ho : ∀ fields ∈ other.objects, Fields.Distinct fields) :
    ((∃ tree, ofJson value = .ok tree) ↔ ∃ tree, ofJson other = .ok tree) ∧
      ∀ tree again, ofJson value = .ok tree → ofJson other = .ok again → tree.same again :=
  readAlike_iff.mp (readAlike_of_alike value h hv ho)

/-- A block that lists its empty slot before the name of it, and the same block from its
last field to its first, also in the child. -/
theorem same_of_alike_block : ∃ tree again,
    ofJson (.object [("_nodetype", .string "Block"), ("_empty_slots", .array [.string "body"]),
      ("body", .array []), ("decl", .object [("_nodetype", .string "ID"), ("coord", .null)])]) =
        .ok tree ∧
    ofJson (.object [("decl", .object [("coord", .null), ("_nodetype", .string "ID")]),
      ("body", .array []), ("_empty_slots", .array [.string "body"]),
      ("_nodetype", .string "Block")]) = .ok again ∧
    tree.same again := by
  have hsame : ∀ fields : List (String × Value),
      List.Forall₂ (fun a b : String × Value => a.1 = b.1 ∧ a.2.Alike b.2) fields fields :=
    fun fields => List.forall₂_same.mpr fun _ _ => ⟨rfl, .refl _⟩
  have hblock : (Value.object [("_nodetype", .string "Block"),
        ("_empty_slots", .array [.string "body"]), ("body", .array []),
        ("decl", .object [("_nodetype", .string "ID"), ("coord", .null)])]).Alike
      (.object [("decl", .object [("coord", .null), ("_nodetype", .string "ID")]),
        ("body", .array []), ("_empty_slots", .array [.string "body"]),
        ("_nodetype", .string "Block")]) :=
    .of_perm (by decide) (List.reverse_perm _).symm
      (.cons ⟨rfl, .of_perm (by decide) (List.reverse_perm _).symm (hsame _)⟩ (hsame _))
  exact ⟨_, _, rfl, rfl, (same_of_alike hblock (by decide) (by decide)).2 _ _ rfl rfl⟩

end Node

end TreeSeq
