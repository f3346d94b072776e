import TreeSeq.Proofs.Tree.Equality
import TreeSeq.Proofs.Tree.Import

/-!
# What an object is read as

The node of an object, name by name: `Reads` says which attribute and which
children it has under each name, and that is all that sameness looks at.

The fields are taken in turn, but each changes what is under its own name only
(`Draft.get?_scalars_take`, `Draft.get?_slots_take`). So do the names that are
listed as those of empty slots, which come last. `reads_of_ofJson` puts the two
together.
-/

namespace TreeSeq.Node

open Json (Value)

/-- The name has a meaning of its own. -/
def Reserved (name : String) : Prop :=
  name = nodeTypeName ∨ name = spanName ∨ name = emptySlotsName

instance (name : String) : Decidable (Reserved name) :=
  inferInstanceAs (Decidable (_ ∨ _ ∨ _))

theorem accepts_of_plain {name : String} (h : ¬ Reserved name) {value : Value} :
    Accepts name value ↔ value.Readable := by
  simp only [Reserved, not_or] at h
  rw [Accepts, if_neg h.1, if_neg h.2.1, if_neg h.2.2]

/-- The names that an object lists as those of slots without children. -/
def listed (fields : List (String × Value)) : List String :=
  (Fields.get? fields emptySlotsName).elim [] Value.texts

/-- The attribute that an object gives a name. -/
def attributeAt (fields : List (String × Value)) (name : String) : Option Literal :=
  if Reserved name then none else (Fields.get? fields name).bind Value.attribute?

/-- The children that an object gives a name. -/
def slotAt (fields : List (String × Value)) (name : String) : Option (List Node) :=
  if Reserved name then none else (Fields.get? fields name).bind Value.slot?

/-- The node has, under each name, what an object says. A name that is listed has
a slot, and an empty list does not count as its attribute. -/
structure Reads (fields : List (String × Value)) (node : Node) : Prop where
  nodeType : Fields.get? fields nodeTypeName = some (.string node.nodeType)
  typed : node.nodeType ≠ ""
  span : (Fields.get? fields spanName).bind Value.text? = node.span
  scalars : ∀ name, Fields.get? node.scalars name =
    if name ∈ listed fields ∧ attributeAt fields name = some (.many []) then none
    else attributeAt fields name
  slots : ∀ name, Fields.get? node.slots name =
    (slotAt fields name).or (if name ∈ listed fields then some [] else none)

namespace Reads

variable {fields : List (String × Value)} {node : Node} {name : String}

/-- A name with a meaning of its own is that of no attribute. -/
theorem get?_scalars_of_reserved (h : Reads fields node) (hr : Reserved name) :
    Fields.get? node.scalars name = none := by
  rw [h.scalars, attributeAt, if_pos hr, if_neg (by simp)]

theorem get?_slots_of_reserved (h : Reads fields node) (hr : Reserved name) :
    Fields.get? node.slots name = if name ∈ listed fields then some [] else none := by
  rw [h.slots, slotAt, if_pos hr, Option.none_or]

theorem not_reserved_of_get? (h : Reads fields node) {literal : Literal}
    (hl : Fields.get? node.scalars name = some literal) : ¬ Reserved name := fun hr => by
  rw [h.get?_scalars_of_reserved hr] at hl
  cases hl

/-- An attribute is that of the field of its name, and no empty list if the name
is listed. -/
theorem exists_attribute (h : Reads fields node) {literal : Literal}
    (hl : Fields.get? node.scalars name = some literal) :
    (name ∈ listed fields → literal ≠ .many []) ∧
      ∃ value, Fields.get? fields name = some value ∧ value.attribute? = some literal := by
  have hres := h.not_reserved_of_get? hl
  have ha := h.scalars name
  rw [hl] at ha
  split at ha
  · cases ha
  rename_i hne
  rw [attributeAt, if_neg hres] at ha hne
  exact ⟨fun hm he => hne ⟨hm, by rw [← ha, he]⟩, Option.bind_eq_some_iff.mp ha.symm⟩

/-- A slot has the trees in the field of its name, or no children and a name that
is listed. -/
theorem exists_trees (h : Reads fields node) {children : List Node}
    (hc : Fields.get? node.slots name = some children) :
    (¬ Reserved name ∧ children ≠ [] ∧
      ∃ value, Fields.get? fields name = some value ∧ value.trees = children) ∨
    (name ∈ listed fields ∧ children = []) := by
  rw [h.slots, Option.or_eq_some_iff] at hc
  rcases hc with hs | ⟨-, he⟩
  · rw [slotAt] at hs
    split at hs
    · cases hs
    rename_i hres
    obtain ⟨value, hv, hs⟩ := Option.bind_eq_some_iff.mp hs
    rw [Value.slot?] at hs
    split at hs
    · cases hs
    rename_i hne
    have ht := Option.some.inj hs
    rw [ht, List.isEmpty_iff] at hne
    exact .inl ⟨hres, hne, value, hv, ht⟩
  · split at he
    · rename_i hm
      exact .inr ⟨hm, (Option.some.inj he).symm⟩
    · cases he

end Reads

namespace Draft

theorem take_of_plain (draft : Draft) {name : String} (h : ¬ Reserved name) (value : Value) :
    draft.take (name, value) = draft.absorb name value := by
  simp only [Reserved, not_or] at h
  simp only [take, if_neg h.1, if_neg h.2.1, if_neg h.2.2]

theorem take_of_reserved (draft : Draft) {name : String} (h : Reserved name) (value : Value) :
    (draft.take (name, value)).node.scalars = draft.node.scalars ∧
      (draft.take (name, value)).node.slots = draft.node.slots := by
  unfold take
  simp only
  split
  · exact ⟨rfl, rfl⟩
  split
  · exact ⟨rfl, rfl⟩
  split
  · exact ⟨rfl, rfl⟩
  rename_i hn hs he
  exact absurd h (by simp [Reserved, hn, hs, he])

theorem get?_scalars_take (key : String) (draft : Draft) (name : String) (value : Value) :
    Fields.get? (draft.take (name, value)).node.scalars key =
      if key == name then (if Reserved key then none else value.attribute?).or
        (Fields.get? draft.node.scalars key)
      else Fields.get? draft.node.scalars key := by
  by_cases hr : Reserved name
  · rw [(draft.take_of_reserved hr value).1]
    by_cases hk : key = name <;> simp [hk, hr]
  · rw [take_of_plain draft hr, absorb, Fields.get?_elim_put]
    by_cases hk : key = name <;> simp [hk, hr]

theorem get?_slots_take (key : String) (draft : Draft) (name : String) (value : Value) :
    Fields.get? (draft.take (name, value)).node.slots key =
      if key == name then (if Reserved key then none else value.slot?).or
        (Fields.get? draft.node.slots key)
      else Fields.get? draft.node.slots key := by
  by_cases hr : Reserved name
  · rw [(draft.take_of_reserved hr value).2]
    by_cases hk : key = name <;> simp [hk, hr]
  · rw [take_of_plain draft hr, absorb, Fields.get?_elim_put]
    by_cases hk : key = name <;> simp [hk, hr]

theorem span_take (draft : Draft) (name : String) (value : Value) :
    (draft.take (name, value)).node.span =
      if spanName == name then value.text? else draft.node.span := by
  unfold take
  simp only
  by_cases hs : name = spanName
  · subst hs
    rw [if_neg (by decide), if_pos rfl, if_pos (beq_self_eq_true spanName)]
  · rw [if_neg hs]
    simp only [beq_iff_eq, Ne.symm hs, if_false]
    split_ifs <;> rfl

theorem emptySlots_take (draft : Draft) (name : String) (value : Value) :
    (draft.take (name, value)).emptySlots =
      if emptySlotsName == name then value.texts else draft.emptySlots := by
  unfold take
  simp only
  by_cases he : name = emptySlotsName
  · subst he
    rw [if_neg (by decide), if_neg (by decide), if_pos rfl, if_pos (beq_self_eq_true emptySlotsName)]
  · rw [if_neg he]
    simp only [beq_iff_eq, Ne.symm he, if_false]
    split_ifs <;> rfl

theorem nodeType_take (draft : Draft) (field : String × Value) :
    (draft.take field).node.nodeType = draft.node.nodeType := by
  unfold take
  split_ifs <;> rfl

theorem namesDistinct_take {draft : Draft} (h : draft.node.NamesDistinct) (field : String × Value) :
    (draft.take field).node.NamesDistinct := by
  unfold take
  split_ifs
  · exact h
  · exact ⟨h.scalars, h.slots⟩
  · exact h
  · constructor
    · rw [absorb]
      cases field.2.attribute? with
      | none => exact h.scalars
      | some literal => exact h.scalars.put field.1 literal
    · rw [absorb]
      cases field.2.slot? with
      | none => exact h.slots
      | some children => exact h.slots.put field.1 children

theorem scalars_emptySlot (node : Node) (slot : String) :
    (emptySlot node slot).scalars =
      if Fields.get? node.scalars slot = some (.many []) then Fields.erase node.scalars slot
      else node.scalars := rfl

theorem slots_emptySlot (node : Node) (slot : String) :
    (emptySlot node slot).slots =
      if Fields.has node.slots slot then node.slots else node.slots ++ [(slot, [])] := rfl

theorem foldl_take_frame (fields : List (String × Value)) {draft : Draft}
    (h : draft.node.NamesDistinct) :
    (fields.foldl take draft).node.nodeType = draft.node.nodeType ∧
      (fields.foldl take draft).node.NamesDistinct := by
  induction fields generalizing draft with
  | nil => exact ⟨rfl, h⟩
  | cons field rest ih =>
    rw [List.foldl_cons, ← nodeType_take draft field]
    exact ih (namesDistinct_take h field)

theorem get?_scalars_emptySlot (node : Node) (slot key : String) :
    Fields.get? (emptySlot node slot).scalars key =
      if key = slot ∧ Fields.get? node.scalars key = some (.many []) then none
      else Fields.get? node.scalars key := by
  rw [scalars_emptySlot]
  by_cases hk : key = slot
  · subst hk
    split_ifs with he he' he'
    · rw [Fields.get?_erase, if_neg (by simp)]
    · exact absurd ⟨rfl, he⟩ he'
    · exact absurd he'.2 he
    · rfl
  · rw [if_neg fun h : key = slot ∧ _ => hk h.1]
    split
    · rw [Fields.get?_erase, if_pos (by simpa using hk)]
    · rfl

theorem get?_slots_emptySlot (node : Node) (slot key : String) :
    Fields.get? (emptySlot node slot).slots key =
      (Fields.get? node.slots key).or (if key = slot then some [] else none) := by
  rw [slots_emptySlot]
  by_cases hh : Fields.has node.slots slot
  · rw [if_pos hh]
    by_cases hk : key = slot
    · subst hk
      obtain ⟨children, hc⟩ := Fields.mem_names_iff.mp (Fields.has_iff.mp hh)
      rw [hc, Option.some_or]
    · rw [if_neg hk, Option.or_none]
  · rw [if_neg hh, Fields.get?_append, Fields.get?_cons, Fields.get?_nil]
    simp only [beq_iff_eq]

theorem namesDistinct_emptySlot {node : Node} (h : node.NamesDistinct) (slot : String) :
    (emptySlot node slot).NamesDistinct := by
  constructor
  · rw [scalars_emptySlot]
    split
    · exact h.scalars.erase slot
    · exact h.scalars
  · rw [slots_emptySlot]
    split
    · exact h.slots
    · rename_i hh
      rw [Fields.has_iff] at hh
      rw [Fields.Distinct, Fields.names_append, List.nodup_append]
      refine ⟨h.slots, by simp, fun name hn other ho he => hh ?_⟩
      rw [Fields.names_cons, Fields.names_nil, List.mem_singleton] at ho
      rwa [← ho, ← he]

/-- Emptying slots, one name after the other. -/
theorem get?_scalars_foldl_emptySlot (names : List String) (node : Node) (key : String) :
    Fields.get? (names.foldl emptySlot node).scalars key =
      if key ∈ names ∧ Fields.get? node.scalars key = some (.many []) then none
      else Fields.get? node.scalars key := by
  induction names generalizing node with
  | nil => simp
  | cons name rest ih =>
    rw [List.foldl_cons, ih, get?_scalars_emptySlot]
    by_cases he : Fields.get? node.scalars key = some (.many []) <;> by_cases hk : key = name <;>
      simp [he, hk]

theorem get?_slots_foldl_emptySlot (names : List String) (node : Node) (key : String) :
    Fields.get? (names.foldl emptySlot node).slots key =
      (Fields.get? node.slots key).or (if key ∈ names then some [] else none) := by
  induction names generalizing node with
  | nil => simp
  | cons name rest ih =>
    rw [List.foldl_cons, ih, get?_slots_emptySlot, Option.or_assoc]
    by_cases hk : key = name <;> simp [hk]

theorem foldl_emptySlot_frame (names : List String) {node : Node} (h : node.NamesDistinct) :
    (names.foldl emptySlot node).nodeType = node.nodeType ∧
      (names.foldl emptySlot node).span = node.span ∧ (names.foldl emptySlot node).NamesDistinct := by
  induction names generalizing node with
  | nil => exact ⟨rfl, rfl, h⟩
  | cons name rest ih => exact ih (namesDistinct_emptySlot h name)

end Draft

/-- The node that is read from an object has what the object says. -/
theorem reads_of_ofJson {fields : List (String × Value)} (hd : Fields.Distinct fields) {tree : Node}
    (h : ofJson (.object fields) = .ok tree) : Reads fields tree ∧ tree.NamesDistinct := by
  obtain ⟨nodeType, ht, -, rfl⟩ := ofJson_object_eq_ok_iff.mp h
  obtain ⟨hn, hne⟩ := typeOf?_eq_some_iff.mp ht
  generalize hout : fields.foldl Draft.take ⟨.ofType nodeType, []⟩ = out
  have hscalars : ∀ name, Fields.get? out.node.scalars name = attributeAt fields name := by
    intro name
    rw [← hout, Fields.foldl_eq_get? (fun d : Draft => Fields.get? d.node.scalars name)
      (Draft.get?_scalars_take name) hd, attributeAt]
    cases Fields.get? fields name <;> simp [ofType]
  have hslots : ∀ name, Fields.get? out.node.slots name = slotAt fields name := by
    intro name
    rw [← hout, Fields.foldl_eq_get? (fun d : Draft => Fields.get? d.node.slots name)
      (Draft.get?_slots_take name) hd, slotAt]
    cases Fields.get? fields name <;> simp [ofType]
  have hspan : (Fields.get? fields spanName).bind Value.text? = out.node.span := by
    rw [← hout, Fields.foldl_eq_get? (fun d : Draft => d.node.span)
      (f := fun value _ => value.text?) Draft.span_take hd]
    cases Fields.get? fields spanName <;> rfl
  have hlisted : out.emptySlots = listed fields := by
    rw [← hout, Fields.foldl_eq_get? (fun d : Draft => d.emptySlots)
      (f := fun value _ => value.texts) Draft.emptySlots_take hd]
    rfl
  obtain ⟨htype, hdistinct⟩ : out.node.nodeType = nodeType ∧ out.node.NamesDistinct :=
    hout ▸ Draft.foldl_take_frame fields ⟨Fields.distinct_nil, Fields.distinct_nil⟩
  obtain ⟨hftype, hfspan, hfdistinct⟩ := Draft.foldl_emptySlot_frame out.emptySlots hdistinct
  rw [Draft.finish]
  refine ⟨⟨?_, ?_, ?_, fun name => ?_, fun name => ?_⟩, hfdistinct⟩
  · rw [hftype, htype, hn]
  · rw [hftype, htype]
    exact hne
  · rw [hfspan, hspan]
  · rw [Draft.get?_scalars_foldl_emptySlot, hscalars, hlisted]
  · rw [Draft.get?_slots_foldl_emptySlot, hslots, hlisted]

end TreeSeq.Node
