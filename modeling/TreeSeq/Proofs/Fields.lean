import TreeSeq.Fields
import Mathlib.Data.List.Nodup
import Mathlib.Data.List.Perm.Subperm

/-!
# Fields as maps

What `get?` finds after each operation on fields, for every name, and when two
lists of fields agree as maps.

* `get?_ofPairs`: of the values that pairs give a name, the last counts;
* `foldl_eq_get?`: steps taken field by field, as seen through a view that only
  one name changes;
* `foldl_eq_append`: steps taken item by item, as seen through a view that lists the
  items;
* `rel_get?_iff`: fields of distinct names related name by name, of which
  `same_iff` is the case of equality;
* `names_sublist_ofPairs`: names that are given once keep their order.
-/

namespace TreeSeq.Fields

variable {κ α β σ : Type} [BEq κ] [LawfulBEq κ]

theorem mem_names_iff {fields : List (κ × α)} {key : κ} :
    key ∈ names fields ↔ ∃ value, get? fields key = some value := by
  rw [← Option.isSome_iff_exists, Option.isSome_iff_ne_none, ne_eq, get?_eq_none_iff, not_not]

theorem has_iff {fields : List (κ × α)} {key : κ} : has fields key ↔ key ∈ names fields := by
  rw [has, Option.isSome_iff_exists, mem_names_iff]

theorem mem_of_get? {fields : List (κ × α)} {key : κ} {value : α}
    (h : get? fields key = some value) : (key, value) ∈ fields := by
  obtain ⟨before, after, rfl, _⟩ := List.lookup_eq_some_iff.mp h
  simp

/-- Of fields with distinct names each can be looked up. -/
theorem get?_of_mem {fields : List (κ × α)} (hd : Distinct fields) {key : κ} {value : α}
    (h : (key, value) ∈ fields) : get? fields key = some value := by
  obtain ⟨other, ho⟩ := mem_names_iff.mp (List.mem_map_of_mem h : key ∈ names fields)
  have he := List.inj_on_of_nodup_map hd (mem_of_get? ho) h rfl
  rw [ho, (Prod.mk.inj he).2]

/-- Fields with distinct names, looked up by one name after the other. -/
theorem filterMap_get?_names {fields : List (κ × α)} (hd : Distinct fields) :
    (names fields).filterMap (get? fields) = fields.map (·.2) := by
  have hget : ∀ field ∈ fields, (get? fields ∘ (·.1)) field = (some ∘ (·.2)) field :=
    fun field hm => get?_of_mem hd hm
  rw [names, List.filterMap_map, List.filterMap_congr hget, List.filterMap_eq_map]

/-- What holds of all fields with distinct names is said of them name by name. -/
theorem forall_mem_iff {fields : List (κ × α)} (hd : Distinct fields) {p : κ → α → Prop} :
    (∀ field ∈ fields, p field.1 field.2) ↔ ∀ key, ∀ value ∈ get? fields key, p key value :=
  ⟨fun h _ _ hv => h _ (mem_of_get? hv), fun h _ hf => h _ _ (get?_of_mem hd hf)⟩

omit [LawfulBEq κ] in
theorem get?_append (a b : List (κ × α)) (key : κ) :
    get? (a ++ b) key = (get? a key).or (get? b key) :=
  List.lookup_append

/-- The order of distinct names does not count. -/
theorem get?_of_perm {a b : List (κ × α)} (hd : Distinct a) (hp : a.Perm b) (key : κ) :
    get? a key = get? b key := by
  refine Option.ext fun value => ⟨fun h => ?_, fun h => ?_⟩
  · exact get?_of_mem (hd.perm hp) (hp.subset (mem_of_get? h))
  · exact get?_of_mem hd (hp.symm.subset (mem_of_get? h))

theorem get?_reverse {fields : List (κ × α)} (hd : Distinct fields) (key : κ) :
    get? fields.reverse key = get? fields key :=
  get?_of_perm (hd.perm (List.reverse_perm _).symm) (List.reverse_perm _) key

theorem get?_put (fields : List (κ × α)) (name key : κ) (value : α) :
    get? (put fields name value) key = if key == name then some value else get? fields key := by
  induction fields with
  | nil => rw [put, get?_cons]
  | cons field rest ih =>
    obtain ⟨other, old⟩ := field
    simp only [put]
    split
    · rename_i h
      rw [eq_of_beq h]
      simp only [get?_cons]
      split <;> rfl
    · rename_i h
      simp only [get?_cons, ih]
      by_cases hk : key = other
      · simp_all
      · simp [hk]

/-- A value may be put or not. -/
theorem get?_elim_put (value : Option α) (fields : List (κ × α)) (name key : κ) :
    get? (value.elim fields (put fields name)) key =
      if key == name then value.or (get? fields key) else get? fields key := by
  cases value with
  | none => simp
  | some value => rw [Option.elim_some, get?_put, Option.some_or]

/-- The last value that the pairs give a name. -/
theorem get?_ofPairs (pairs : List (κ × α)) (key : κ) :
    get? (ofPairs pairs) key = get? pairs.reverse key := by
  suffices h : ∀ fields : List (κ × α),
      get? (pairs.foldl (fun fields pair => put fields pair.1 pair.2) fields) key =
        (get? pairs.reverse key).or (get? fields key) by
    rw [ofPairs, h, get?_nil, Option.or_none]
  induction pairs with
  | nil => simp
  | cons pair rest ih =>
    intro fields
    rw [List.foldl_cons, ih, get?_put, List.reverse_cons, get?_append, Option.or_assoc, get?_cons]
    split <;> simp

omit [BEq κ] [LawfulBEq κ] in
theorem Distinct.filter {fields : List (κ × α)} (h : Distinct fields) (p : κ × α → Bool) :
    Distinct (fields.filter p) :=
  List.Nodup.sublist (List.Sublist.map _ List.filter_sublist) h

omit [BEq κ] [LawfulBEq κ] in
theorem Distinct.map {fields : List (κ × α)} (h : Distinct fields) (f : κ → α → β) :
    Distinct (fields.map fun field => (field.1, f field.1 field.2)) := by
  rw [Distinct, names, List.map_map]
  exact h

theorem get?_filter (p : κ → Bool) (fields : List (κ × α)) (key : κ) :
    get? (fields.filter fun field => p field.1) key = if p key then get? fields key else none := by
  induction fields with
  | nil => simp
  | cons field rest ih =>
    obtain ⟨other, value⟩ := field
    by_cases hk : key = other
    · subst hk
      cases hp : p key <;> simp [hp, get?_cons, ih]
    · cases hp : p other <;> simp [hp, get?_cons, ih, hk]

theorem get?_erase (fields : List (κ × α)) (name key : κ) :
    get? (erase fields name) key = if key != name then get? fields key else none :=
  get?_filter (· != name) fields key

theorem get?_map (f : κ → α → β) (fields : List (κ × α)) (key : κ) :
    get? (fields.map fun field => (field.1, f field.1 field.2)) key =
      (get? fields key).map (f key) := by
  induction fields with
  | nil => rfl
  | cons field rest ih =>
    obtain ⟨other, value⟩ := field
    rw [List.map_cons, get?_cons, get?_cons, ih]
    split
    · rename_i h
      rw [eq_of_beq h]
      rfl
    · rfl

/-- Steps are taken field by field, and the view of the state is changed by the
field `key` alone. After all of them it is what that field makes of it. -/
theorem foldl_eq_get? (view : σ → β) {step : σ → κ × α → σ} {key : κ} {f : α → β → β}
    (h : ∀ s name value, view (step s (name, value)) =
      if key == name then f value (view s) else view s)
    {fields : List (κ × α)} (hd : Distinct fields) (s : σ) :
    view (fields.foldl step s) = (get? fields key).elim (view s) fun value => f value (view s) := by
  induction fields generalizing s with
  | nil => rfl
  | cons field rest ih =>
    obtain ⟨name, value⟩ := field
    obtain ⟨hn, hd⟩ := List.nodup_cons.mp hd
    rw [List.foldl_cons, ih hd, h, get?_cons]
    split
    · rename_i hk
      have hr : get? rest key = none := get?_eq_none_iff.mpr (eq_of_beq hk ▸ hn)
      rw [hr]
      rfl
    · rfl

/-- Each field of one list is related to the field of its name in a list of the
same length just if the two are related name by name. -/
theorem rel_get?_iff {r : α → β → Prop} {a : List (κ × α)} {b : List (κ × β)} (ha : Distinct a)
    (hb : Distinct b) :
    (a.length = b.length ∧ ∀ field ∈ a, ∃ value, get? b field.1 = some value ∧ r field.2 value) ↔
      ∀ key, Option.Rel r (get? a key) (get? b key) := by
  have hla : (names a).length = a.length := List.length_map _
  have hlb : (names b).length = b.length := List.length_map _
  constructor
  · intro ⟨hl, h⟩ key
    have hs : names a ⊆ names b := by
      intro name hn
      obtain ⟨field, hf, rfl⟩ := List.mem_map.mp hn
      obtain ⟨value, hv, _⟩ := h field hf
      exact mem_names_iff.mpr ⟨value, hv⟩
    -- no name of `b` is left over, the lengths being equal
    have hp := (List.subperm_of_subset ha hs).perm_of_length_le (by omega)
    cases hk : get? a key with
    | none =>
      rw [get?_eq_none_iff, hp.mem_iff, ← get?_eq_none_iff] at hk
      rw [hk]
      exact .none
    | some value =>
      obtain ⟨other, ho, hr⟩ := h _ (mem_of_get? hk)
      rw [ho]
      exact .some hr
  · intro h
    refine ⟨?_, fun ⟨name, value⟩ hf => ?_⟩
    · have hp : (names a).Perm (names b) := (List.perm_ext_iff_of_nodup ha hb).mpr fun key => by
        rw [mem_names_iff, mem_names_iff]
        have hk := h key
        revert hk
        cases get? a key <;> cases get? b key <;> simp
      have := hp.length_eq
      omega
    · have hk := h name
      rw [get?_of_mem ha hf] at hk
      obtain ⟨other, ho⟩ : ∃ other, get? b name = some other := by
        revert hk
        cases get? b name <;> simp
      rw [ho, Option.rel_some_some] at hk
      exact ⟨other, ho, hk⟩

/-- Fields with distinct names are the same just if each name has the same value
in both. -/
theorem same_iff [BEq α] [LawfulBEq α] {a b : List (κ × α)} (ha : Distinct a) (hb : Distinct b) :
    same a b ↔ ∀ key, get? a key = get? b key := by
  have h := rel_get?_iff (r := Eq) ha hb
  rw [same, Bool.and_eq_true, beq_iff_eq, List.all_eq_true]
  simp only [beq_iff_eq]
  simp only [exists_eq_right'] at h
  rw [h]
  refine forall_congr' fun key => ?_
  cases get? a key <;> cases get? b key <;> simp

theorem same_of_perm [BEq α] [LawfulBEq α] {a b : List (κ × α)} (hd : Distinct a) (hp : a.Perm b) :
    same a b :=
  (same_iff hd (hd.perm hp)).mpr (get?_of_perm hd hp)

/-! ## The order of names -/

/-- Items taken one by one, as seen through a view in which each new one comes last: all
that are new come last, in the order in which they first stand. -/
theorem foldl_eq_append (view : σ → List κ) {step : σ → κ → σ}
    (h : ∀ s item, view (step s item) =
      if item ∈ view s then view s else view s ++ [item]) (items : List κ) (s : σ) :
    view (items.foldl step s) = view s ++ (items.filter (· ∉ view s)).eraseDups := by
  induction items generalizing s with
  | nil => simp
  | cons item rest ih =>
    rw [List.foldl_cons, ih, h]
    split
    · rename_i hm
      rw [List.filter_cons_of_neg (by simpa using hm)]
    · rename_i hm
      rw [List.filter_cons_of_pos (by simpa using hm), List.eraseDups_cons, List.append_assoc,
        List.singleton_append, List.filter_filter]
      congr 3
      refine List.filter_congr fun other _ => ?_
      rw [Bool.eq_iff_iff]
      simp [and_comm]

theorem names_sublist_put (fields : List (κ × α)) (name : κ) (value : α) :
    (names fields).Sublist (names (put fields name value)) := by
  rw [names_put]
  split
  · exact List.Sublist.refl _
  · exact List.sublist_append_left _ _

theorem names_put_sublist (fields : List (κ × α)) (name : κ) (value : α) :
    (names (put fields name value)).Sublist (names fields ++ [name]) := by
  rw [names_put]
  split
  · exact List.sublist_append_left _ _
  · exact List.Sublist.refl _

theorem names_sublist_foldl_put (pairs fields : List (κ × α)) :
    (names fields).Sublist
      (names (pairs.foldl (fun fields pair => put fields pair.1 pair.2) fields)) := by
  induction pairs generalizing fields with
  | nil => exact List.Sublist.refl _
  | cons pair rest ih => exact (names_sublist_put fields pair.1 pair.2).trans (ih _)

/-- Values under new names are added in order. -/
theorem foldl_put_eq_append {pairs fields : List (κ × α)}
    (hd : (names fields ++ names pairs).Nodup) :
    pairs.foldl (fun fields pair => put fields pair.1 pair.2) fields = fields ++ pairs := by
  induction pairs generalizing fields with
  | nil => simp
  | cons pair rest ih =>
    obtain ⟨name, value⟩ := pair
    rw [names_cons, List.append_cons] at hd
    have hn : name ∉ names fields := fun hm =>
      (List.nodup_append.mp (List.nodup_append.mp hd).1).2.2 name hm name (by simp) rfl
    rw [List.foldl_cons, put_of_not_mem hn, ih (by rwa [names_append]), List.append_assoc,
      List.singleton_append]

/-- Pairs whose names are distinct are fields as they stand. -/
theorem ofPairs_of_distinct {pairs : List (κ × α)} (hd : Distinct pairs) : ofPairs pairs = pairs :=
  foldl_put_eq_append hd

/-- Names that are new are added in order. -/
theorem names_foldl_put {pairs fields : List (κ × α)} (hd : (names fields ++ names pairs).Nodup) :
    names (pairs.foldl (fun fields pair => put fields pair.1 pair.2) fields) =
      names fields ++ names pairs := by
  rw [foldl_put_eq_append hd, names_append]

theorem mem_names_ofPairs {pairs : List (κ × α)} {name : κ} :
    name ∈ names (ofPairs pairs) ↔ name ∈ names pairs := by
  have hr : name ∈ names pairs.reverse ↔ name ∈ names pairs := by
    rw [names, List.map_reverse, List.mem_reverse, names]
  rw [mem_names_iff, get?_ofPairs, ← mem_names_iff, hr]

/-- Among pairs, names that stand once and in none of the pairs before keep their
order. -/
theorem names_sublist_ofPairs {before pairs : List (κ × α)} (hd : Distinct pairs)
    (hn : ∀ name ∈ names before, name ∉ names pairs) (after : List (κ × α)) :
    (names pairs).Sublist (names (ofPairs (before ++ pairs ++ after))) := by
  have hnodup : (names (ofPairs before) ++ names pairs).Nodup := by
    refine List.nodup_append.mpr ⟨distinct_ofPairs before, hd, fun name hb other hp he => ?_⟩
    exact hn name (mem_names_ofPairs.mp hb) (he ▸ hp)
  have hs := List.sublist_append_right (names (ofPairs before)) (names pairs)
  rw [← names_foldl_put hnodup] at hs
  rw [ofPairs, List.foldl_append, List.foldl_append]
  exact hs.trans (names_sublist_foldl_put after _)

end TreeSeq.Fields
