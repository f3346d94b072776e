/-!
# Fields: values under names, in order

A `Fields α` lists values under names in the order in which the names were
first given. JSON objects, the attributes of a node, its slots and the tokens
of a vocabulary are fields. The operations work for names of any type, such as
ids.

* `put` replaces a value where its name already stands and appends it
  otherwise, so a name keeps its first position and takes its last value;
* `same` compares two lists of fields as maps, whatever their order.

No name stands twice in a list built by `put` and `erase` from `[]`
(`Distinct`).
-/

namespace TreeSeq

/-- Values under names, in the order in which the names were first given. -/
abbrev Fields (α : Type) := List (String × α)

namespace Fields

variable {κ α β : Type}

/-- The names, in order. -/
def names (fields : List (κ × α)) : List κ :=
  fields.map (·.1)

/-- No name stands twice. -/
def Distinct (fields : List (κ × α)) : Prop :=
  (names fields).Nodup

instance [DecidableEq κ] (fields : List (κ × α)) : Decidable (Distinct fields) :=
  inferInstanceAs (Decidable (List.Nodup _))

section

variable [BEq κ]

/-- The value under a name: the first one, should the name stand twice. -/
def get? (fields : List (κ × α)) (name : κ) : Option α :=
  fields.lookup name

/-- Does the name stand here? -/
def has (fields : List (κ × α)) (name : κ) : Bool :=
  (get? fields name).isSome

/-- Gives `name` the value `value`: in place where the name already stands,
at the end otherwise. -/
def put : List (κ × α) → κ → α → List (κ × α)
  | [], name, value => [(name, value)]
  | (key, old) :: rest, name, value =>
    if key == name then (name, value) :: rest else (key, old) :: put rest name value

/-- Drops a name, keeping the order of the others. -/
def erase (fields : List (κ × α)) (name : κ) : List (κ × α) :=
  fields.filter (·.1 != name)

/-- Fields from pairs that may repeat a name: its first position, its last
value. -/
def ofPairs (pairs : List (κ × α)) : List (κ × α) :=
  pairs.foldl (fun fields pair => put fields pair.1 pair.2) []

/-- The two hold the same values under the same names, in any order. -/
def same [BEq α] (a b : List (κ × α)) : Bool :=
  a.length == b.length && a.all fun field => get? b field.1 == some field.2

end

/-! ## What each operation gives -/

@[simp] theorem names_nil : names ([] : List (κ × α)) = [] := rfl

@[simp] theorem names_cons (name : κ) (value : α) (rest : List (κ × α)) :
    names ((name, value) :: rest) = name :: names rest := rfl

@[simp] theorem names_append (a b : List (κ × α)) : names (a ++ b) = names a ++ names b := by
  simp [names]

@[simp] theorem get?_nil [BEq κ] (name : κ) : get? ([] : List (κ × α)) name = none := rfl

theorem get?_cons [BEq κ] (key name : κ) (value : α) (rest : List (κ × α)) :
    get? ((key, value) :: rest) name = if name == key then some value else get? rest name := by
  simp only [get?, List.lookup_cons]
  split <;> simp_all

/-- Putting a value under a name keeps the names and adds this one at the end
if it is new. -/
theorem names_put [BEq κ] [LawfulBEq κ] (fields : List (κ × α)) (name : κ) (value : α) :
    names (put fields name value) =
      if name ∈ names fields then names fields else names fields ++ [name] := by
  induction fields with
  | nil => simp [put]
  | cons field rest ih =>
    obtain ⟨key, old⟩ := field
    by_cases h : key = name
    · simp [put, h]
    · simp only [put, beq_iff_eq, h, if_false, names_cons, ih, List.mem_cons, Ne.symm h, false_or]
      split <;> simp

theorem get?_eq_none_iff [BEq κ] [LawfulBEq κ] {fields : List (κ × α)} {key : κ} :
    get? fields key = none ↔ key ∉ names fields := by
  simp only [get?, names, List.lookup_eq_none_iff, List.mem_map, bne_iff_ne]
  constructor
  · rintro h ⟨field, hf, he⟩
    exact h field hf he.symm
  · exact fun h field hf he => h ⟨field, hf, he.symm⟩

/-- A value under a new name is added at the end. -/
theorem put_of_not_mem [BEq κ] [LawfulBEq κ] {fields : List (κ × α)} {name : κ}
    (h : name ∉ names fields) (value : α) : put fields name value = fields ++ [(name, value)] := by
  induction fields with
  | nil => rfl
  | cons field rest ih =>
    obtain ⟨key, old⟩ := field
    rw [names_cons, List.mem_cons, not_or] at h
    rw [put, if_neg (by simpa using Ne.symm h.1), ih h.2, List.cons_append]

theorem distinct_nil : Distinct ([] : List (κ × α)) :=
  List.nodup_nil

theorem Distinct.put [BEq κ] [LawfulBEq κ] {fields : List (κ × α)} (h : Distinct fields) (name : κ)
    (value : α) : Distinct (put fields name value) := by
  unfold Distinct at *
  rw [names_put]
  split
  · exact h
  · rename_i hn
    rw [List.nodup_append]
    refine ⟨h, by simp, ?_⟩
    intro a ha b hb
    simp only [List.mem_singleton] at hb
    subst hb
    exact fun e => hn (e ▸ ha)

theorem Distinct.erase [BEq κ] {fields : List (κ × α)} (h : Distinct fields) (name : κ) :
    Distinct (erase fields name) :=
  List.Nodup.sublist (List.Sublist.map _ List.filter_sublist) h

/-- The order of fields does not matter for their names to be distinct. -/
theorem Distinct.perm {a b : List (κ × α)} (h : Distinct a) (p : a.Perm b) : Distinct b :=
  ((p.map _).nodup_iff).mp h

theorem distinct_ofPairs [BEq κ] [LawfulBEq κ] (pairs : List (κ × α)) :
    Distinct (ofPairs pairs) := by
  suffices ∀ (pairs fields : List (κ × α)), Distinct fields →
      Distinct (pairs.foldl (fun fields pair => Fields.put fields pair.1 pair.2) fields) from
    this pairs [] distinct_nil
  intro pairs
  induction pairs with
  | nil => exact fun _ h => h
  | cons pair rest ih => exact fun fields h => ih _ (h.put _ _)

end Fields

end TreeSeq
