import TreeSeq.Proofs.Fields
import Mathlib.Data.List.Forall2

/-!
# Fields that hold lists

The slots of a node and those of a record are fields that hold lists. They are
compared here in two ways: slot by slot in order (`Slotwise`), and name by name.

* `slotwise_iff`: slots correspond in order just if they have the same names and
  sizes and their entries correspond, read one after the other;
* `slotwise_filled_iff`: the slots that hold something correspond in order just if
  all slots correspond name by name and those that hold something stand in the
  same order;
* `filled_eq_of_ascending`: they do where the entries ascend.
-/

namespace TreeSeq

theorem exists_of_forall₂ {α β : Type} {r : α → β → Prop} {a : List α} {b : List β}
    (h : List.Forall₂ r a b) : ∀ y ∈ b, ∃ x ∈ a, r x y := by
  induction h with
  | nil => simp
  | cons hxy _ ih =>
    rw [List.forall_mem_cons]
    refine ⟨⟨_, List.mem_cons_self, hxy⟩, fun y hy => ?_⟩
    obtain ⟨x, hx, hr⟩ := ih y hy
    exact ⟨x, List.mem_cons_of_mem _ hx, hr⟩

namespace Fields

variable {κ α β : Type}

/-- How many entries stand under each name. -/
def sizes (slots : List (κ × List α)) : List (κ × Nat) :=
  slots.map fun slot => (slot.1, slot.2.length)

/-- The slots that hold something. -/
def filled (slots : List (κ × List α)) : List (κ × List α) :=
  slots.filter (!·.2.isEmpty)

/-- The slots have the same names in the same order, and entries that correspond. -/
def Slotwise (r : α → β → Prop) (slots : List (κ × List α)) (others : List (κ × List β)) : Prop :=
  List.Forall₂ (fun slot other => slot.1 = other.1 ∧ List.Forall₂ r slot.2 other.2) slots others

theorem sizes_cons (name : κ) (entries : List α) (rest : List (κ × List α)) :
    sizes ((name, entries) :: rest) = (name, entries.length) :: sizes rest := rfl

theorem names_sizes (slots : List (κ × List α)) : names (sizes slots) = names slots := by
  rw [names, sizes, List.map_map]
  rfl

theorem mem_filled {slots : List (κ × List α)} {slot : κ × List α} :
    slot ∈ filled slots ↔ slot ∈ slots ∧ slot.2 ≠ [] := by
  simp [filled]

theorem sizes_filled (slots : List (κ × List α)) :
    sizes (filled slots) = (sizes slots).filter (·.2 != 0) := by
  rw [sizes, sizes, filled, List.filter_map]
  congr 1
  refine List.filter_congr fun slot _ => ?_
  cases h : slot.2 <;> simp [h]

theorem flatMap_filled (slots : List (κ × List α)) :
    (filled slots).flatMap (·.2) = slots.flatMap (·.2) := by
  induction slots with
  | nil => rfl
  | cons slot rest ih =>
    rw [List.flatMap_cons, ← ih, filled, List.filter_cons]
    split
    · rfl
    · rename_i h
      have he : slot.2 = [] := by simpa using h
      rw [he, List.nil_append, filled]

theorem distinct_filled {slots : List (κ × List α)} (h : Distinct slots) :
    Distinct (filled slots) :=
  h.filter _

/-! ## Slot by slot -/

theorem slotwise_iff {r : α → β → Prop} {slots : List (κ × List α)} {others : List (κ × List β)} :
    Slotwise r slots others ↔ sizes slots = sizes others ∧
      List.Forall₂ r (slots.flatMap (·.2)) (others.flatMap (·.2)) := by
  constructor
  · intro h
    induction h with
    | nil => exact ⟨rfl, .nil⟩
    | @cons slot other rest others hs _ ih =>
      obtain ⟨hn, he⟩ := hs
      refine ⟨?_, List.rel_append he ih.2⟩
      rw [sizes, sizes, List.map_cons, List.map_cons, hn, he.length_eq]
      exact congrArg _ ih.1
  · rintro ⟨hs, he⟩
    induction slots generalizing others with
    | nil =>
      cases others with
      | nil => exact .nil
      | cons other others => cases hs
    | cons slot rest ih =>
      cases others with
      | nil => cases hs
      | cons other others =>
        obtain ⟨name, entries⟩ := slot
        obtain ⟨name', entries'⟩ := other
        rw [sizes_cons, sizes_cons, List.cons.injEq, Prod.mk.injEq] at hs
        obtain ⟨⟨rfl, hl⟩, hs⟩ := hs
        simp only [List.flatMap_cons] at he
        have ht := List.forall₂_take entries.length he
        have hd := List.forall₂_drop entries.length he
        rw [List.take_left' rfl, List.take_left' hl.symm] at ht
        rw [List.drop_left' rfl, List.drop_left' hl.symm] at hd
        exact .cons ⟨rfl, ht⟩ (ih hs hd)

theorem slotwise_eq_iff {slots others : List (κ × List α)} :
    Slotwise Eq slots others ↔ slots = others := by
  simp only [Slotwise, List.forall₂_eq_eq_eq]
  constructor
  · intro h
    exact List.forall₂_eq_eq_eq ▸ h.imp fun _ _ he => Prod.ext he.1 he.2
  · rintro rfl
    exact List.forall₂_same.mpr fun _ _ => ⟨rfl, rfl⟩

/-- Slots are told by their sizes and their entries, read one after the other. -/
theorem eq_of_sizes {slots others : List (κ × List α)} (hs : sizes slots = sizes others)
    (he : slots.flatMap (·.2) = others.flatMap (·.2)) : slots = others :=
  slotwise_eq_iff.mp (slotwise_iff.mpr ⟨hs, List.forall₂_eq_eq_eq ▸ he⟩)

/-- Slots of the same sizes are renamed slot by slot if all their entries are. -/
theorem eq_map_of_sizes {slots : List (κ × List α)} {others : List (κ × List β)} (f : α → β)
    (hs : sizes slots = sizes others) (he : others.flatMap (·.2) = (slots.flatMap (·.2)).map f) :
    others = slots.map fun slot => (slot.1, slot.2.map f) := by
  refine eq_of_sizes ?_ ?_
  · rw [← hs, sizes, sizes, List.map_map]
    exact List.map_congr_left fun slot _ => by simp
  · rw [he, List.map_flatMap, List.flatMap_map]

/-! ## Name by name -/

theorem forall₂_of_names {r : κ × α → κ × β → Prop} {a : List (κ × α)} {b : List (κ × β)}
    (hn : names a = names b) (h : ∀ x ∈ a, ∀ y ∈ b, x.1 = y.1 → r x y) : List.Forall₂ r a b := by
  induction a generalizing b with
  | nil =>
    cases b with
    | nil => exact .nil
    | cons y b => cases hn
  | cons x a ih =>
    cases b with
    | nil => cases hn
    | cons y b =>
      obtain ⟨hxy, hn⟩ := List.cons.inj hn
      exact .cons (h x List.mem_cons_self y List.mem_cons_self hxy) (ih hn fun x hx y hy =>
        h x (List.mem_cons_of_mem _ hx) y (List.mem_cons_of_mem _ hy))

variable [BEq κ] [LawfulBEq κ]

theorem mem_filled_iff_get? {slots : List (κ × List α)} (hd : Distinct slots) {name : κ}
    {entries : List α} :
    (name, entries) ∈ filled slots ↔ get? slots name = some entries ∧ entries ≠ [] := by
  rw [mem_filled]
  exact and_congr_left fun _ => ⟨get?_of_mem hd, mem_of_get?⟩

theorem get?_filled {slots : List (κ × List α)} (hd : Distinct slots) (name : κ) :
    get? (filled slots) name = (get? slots name).filter (!·.isEmpty) := by
  refine Option.ext fun entries => ?_
  have h : get? (filled slots) name = some entries ↔ (name, entries) ∈ filled slots :=
    ⟨mem_of_get?, get?_of_mem (distinct_filled hd)⟩
  rw [h, mem_filled_iff_get? hd, Option.filter_eq_some_iff]
  simp

omit [LawfulBEq κ] in
theorem Slotwise.get? {r : α → β → Prop} {slots : List (κ × List α)} {others : List (κ × List β)}
    (h : Slotwise r slots others) (name : κ) :
    Option.Rel (List.Forall₂ r) (get? slots name) (get? others name) := by
  induction h with
  | nil => exact .none
  | @cons slot other rest others hs _ ih =>
    obtain ⟨key, entries⟩ := slot
    obtain ⟨key', entries'⟩ := other
    obtain ⟨rfl, he⟩ : key = key' ∧ List.Forall₂ r entries entries' := hs
    rw [get?_cons, get?_cons]
    split
    · exact .some he
    · exact ih

/-- All slots have the same names, and those that hold something correspond in
order, just if slots correspond name by name and those that hold something stand in
the same order. -/
theorem slotwise_filled_iff {r : α → β → Prop} {slots : List (κ × List α)}
    {others : List (κ × List β)} (hd : Distinct slots) (hd' : Distinct others) :
    ((∀ name, name ∈ names slots ↔ name ∈ names others) ∧
      Slotwise r (filled slots) (filled others)) ↔
    ((∀ name, Option.Rel (List.Forall₂ r) (get? slots name) (get? others name)) ∧
      names (filled slots) = names (filled others)) := by
  constructor
  · rintro ⟨hn, hs⟩
    refine ⟨fun name => ?_, ?_⟩
    · have hm := hn name
      have h := hs.get? name
      rw [mem_names_iff, mem_names_iff] at hm
      rw [get?_filled hd, get?_filled hd'] at h
      cases hc : Fields.get? slots name with
      | none =>
        rw [hc] at hm
        cases hc' : Fields.get? others name with
        | none => exact .none
        | some entries' => simp [hc'] at hm
      | some entries =>
        cases hc' : Fields.get? others name with
        | none => simp [hc, hc'] at hm
        | some entries' =>
          rw [hc, hc'] at h
          cases entries <;> cases entries' <;> simp_all [Option.filter]
    · have h := congrArg names (slotwise_iff.mp hs).1
      rwa [names_sizes, names_sizes] at h
  · rintro ⟨hr, hn⟩
    refine ⟨fun name => ?_,
      forall₂_of_names hn fun ⟨name, entries⟩ hm ⟨name', entries'⟩ hm' he => ?_⟩
    · have h := hr name
      rw [mem_names_iff, mem_names_iff]
      revert h
      cases Fields.get? slots name <;> cases Fields.get? others name <;> simp
    · obtain rfl : name = name' := he
      have h := hr name
      rw [((mem_filled_iff_get? hd).mp hm).1, ((mem_filled_iff_get? hd').mp hm').1,
        Option.rel_some_some] at h
      exact ⟨rfl, h⟩

/-- Slots that hold the same ascending numbers stand in the same order. -/
theorem filled_eq_of_ascending {slots others : List (κ × List Nat)} (hd : Distinct slots)
    (hd' : Distinct others) (ha : (slots.flatMap (·.2)).Pairwise (· < ·))
    (ha' : (others.flatMap (·.2)).Pairwise (· < ·))
    (h : ∀ name, Fields.get? slots name = Fields.get? others name) :
    filled slots = filled others := by
  have hp : (filled slots).Perm (filled others) :=
    (List.perm_ext_iff_of_nodup (distinct_filled hd).of_map (distinct_filled hd').of_map).mpr
      fun ⟨name, entries⟩ => by rw [mem_filled_iff_get? hd, mem_filled_iff_get? hd', h name]
  rw [← flatMap_filled, List.pairwise_flatMap] at ha ha'
  refine hp.eq_of_pairwise (fun x y hx hy hxy hyx => ?_) ha.2 ha'.2
  -- of two slots that hold something only one comes first
  obtain ⟨i, hi⟩ := List.exists_mem_of_ne_nil _ (mem_filled.mp hx).2
  obtain ⟨j, hj⟩ := List.exists_mem_of_ne_nil _ (mem_filled.mp hy).2
  exact absurd (hxy i hi j hj) (Nat.lt_asymm (hyx j hj i hi))

end Fields

end TreeSeq
