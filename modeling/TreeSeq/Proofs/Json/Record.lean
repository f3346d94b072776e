import TreeSeq.Json.Record
import TreeSeq.Proofs.Fields
import TreeSeq.Proofs.Json.Values

/-!
# What is read at a known place

`Reads reader text a` says that wherever the text stands, behind blanks and in front
of what ends a numeral, the reader takes it and yields `a`. Containers are described by
the texts of their parts and the blanks between them (`container`), so that one lemma
for each reader covers every way of writing.

* `takes_entries`: a container is taken part by part, each part changing the state as
  `Absorbs` says;
* `reads_list`, `reads_fields`, `reads_record`: arrays, objects and records;
* `reads_value`: any value that fits, as it is written over several lines.
-/

namespace TreeSeq.Json

open Document (ofText)

/-! ## Containers as they are written -/

/-- The parts of a container after the first. -/
def separated (between : Document) : List Document → Document
  | [] => []
  | text :: rest => .char ',' :: (between ++ (text ++ separated between rest))

/-- A container behind its opening bracket, with `between` in front of each part and
`last` in front of the closing bracket. -/
def inside (closing : Char) (between last : Document) : List Document → Document
  | [] => [.char closing]
  | text :: rest => between ++ (text ++ (separated between rest ++ (last ++ [.char closing])))

/-- A container. -/
def container (opening closing : Char) (between last : Document) (parts : List Document) :
    Document :=
  .char opening :: inside closing between last parts

/-- A field, with `gap` behind its colon. -/
def field (gap : Document) (name : String) (text : Document) : Document :=
  quoted name ++ .char ':' :: (gap ++ text)

namespace Value

/-- The symbols of one field. -/
def entrySymbols (depth : Nat) (entry : String × Value) : Document :=
  field [.char ' '] entry.1 (entry.2.symbols depth)

theorem itemSymbols_eq (depth : Nat) (items : List Value) :
    itemSymbols depth items = separated (line depth) (items.map (symbols depth)) := by
  induction items with
  | nil => rfl
  | cons item rest ih => rw [itemSymbols, ih, List.map_cons, separated, List.append_assoc]

theorem fieldSymbols_eq (depth : Nat) (fields : List (String × Value)) :
    fieldSymbols depth fields = separated (line depth) (fields.map (entrySymbols depth)) := by
  induction fields with
  | nil => rfl
  | cons entry rest ih =>
    rw [fieldSymbols, ih, List.map_cons, separated, entrySymbols, field]
    simp only [List.append_assoc, List.cons_append, List.nil_append]

theorem symbols_array (depth : Nat) (items : List Value) :
    (array items).symbols depth =
      container '[' ']' (line (depth + 1)) (line depth) (items.map (symbols (depth + 1))) := by
  cases items with
  | nil => rfl
  | cons item rest =>
    rw [symbols, itemSymbols_eq, List.map_cons, container, inside]
    simp only [List.append_assoc]

theorem symbols_object (depth : Nat) (fields : List (String × Value)) :
    (object fields).symbols depth = container '{' '}' (line (depth + 1)) (line depth)
      (fields.map (entrySymbols (depth + 1))) := by
  cases fields with
  | nil => rfl
  | cons entry rest =>
    rw [symbols, fieldSymbols_eq, List.map_cons, container, inside, entrySymbols, field]
    simp only [List.append_assoc, List.cons_append, List.nil_append]

end Value

namespace Reader

variable {α β σ : Type} {reader : Reader α} {text blanks between last gap : Document} {a : α}
  {name : String}

/-! ## Values by themselves -/

/-- Wherever the text stands, behind blanks and in front of what ends a numeral, the
reader takes it and yields `a`. -/
structure Reads (reader : Reader α) (text : Document) (a : α) : Prop where
  opens : Opens text
  takes : ∀ {blanks after : Document}, Blanks blanks → EndsNumeral after →
    Takes reader (blanks ++ (text ++ after)) a after

theorem Reads.bind {next : α → Reader β} {b : β} (h : Reads reader text a)
    (h' : ∀ rest, Takes (next a) rest b rest) : Reads (reader >>= next) text b :=
  ⟨h.opens, fun hb ha => (h.takes hb ha).bind (h' _)⟩

theorem Reads.map (h : Reads reader text a) (f : α → β) :
    Reads (reader >>= fun a => pure (f a)) text (f a) :=
  h.bind fun rest => takes_pure (f a) rest

/-- A document with nothing else in it. -/
theorem Reads.document (h : Reads reader text a) : document reader text = .ok a := by
  have hend : EndsNumeral [] := by
    rintro c ⟨⟩
  have ht : Takes reader ([] ++ (text ++ [])) a [] := h.takes blanks_nil hend
  rw [List.nil_append, List.append_nil] at ht
  exact document_eq_ok ht blanks_nil

theorem opens_quoted (s : String) : Opens (quoted s) :=
  ⟨'"', _, rfl, rfl, by decide, by decide⟩

theorem reads_string (s : String) : Reads string (quoted s) s := by
  refine ⟨opens_quoted s, fun hb _ => ?_⟩
  rw [quoted_append]
  exact (takes_token hb rfl _).bind ((takes_skip _ _).bind (takes_text s))

theorem reads_natural {n : Nat} (h : n < UInt64.size) :
    Reads natural (ofText (Number.integer n).text) n := by
  refine ⟨opens_integer n, fun {blanks after} hb ha => ?_⟩
  have hmin : Int64.minValue.toInt ≤ n := by
    have : Int64.minValue.toInt < 0 := by decide
    omega
  have hnumber := takes_number hmin (Int.ofNat_lt.mpr h) ha
  obtain ⟨c, tail, ht, hc⟩ := exists_head_integer n
  rw [ht] at hnumber ⊢
  have hat : Takes atNumber (blanks ++ (.char c :: tail ++ after)) true (.char c :: tail ++ after) := by
    refine (takes_token hb (isBlank_numeral hc) _).bind ?_
    rw [← hc]
    exact takes_pure _ _
  refine hat.bind (hnumber.bind ?_)
  show Takes (ite _ _ _) _ _ _
  rw [if_neg (by omega)]
  exact takes_pure _ _

theorem reads_nullable_some (h : Reads reader text a) (hn : text.head? ≠ some (.char 'n')) :
    Reads (nullable reader) text (some a) := by
  refine ⟨h.opens, fun {blanks after} hb ha => ?_⟩
  obtain ⟨c, tail, rfl, hc, -⟩ := h.opens
  refine (takes_token hb hc _).bind ?_
  rw [if_neg (by simpa using hn)]
  exact (h.takes blanks_nil ha).bind (takes_pure _ _)

theorem reads_value {dialect : Dialect} (he : dialect.Exact) {value : Value}
    (hf : dialect.Fits 0 value) (depth : Nat) :
    Reads dialect.value (value.symbols depth) value.merged :=
  ⟨hf.opens depth, fun hb ha => (hf.finds he rfl depth hb ha (.done (takes_pure _ _))).takes⟩

/-! ## Containers -/

/-- One entry after the other is read from these texts, each from the state that the one
before it leaves. -/
inductive Absorbs (entry : σ → Reader σ) : σ → List Document → σ → Prop where
  | nil (state : σ) : Absorbs entry state [] state
  | cons {state mid result : σ} {text : Document} {rest : List Document}
      (h : Reads (entry state) text mid) (hr : Absorbs entry mid rest result) :
      Absorbs entry state (text :: rest) result

variable {closing : Char}

theorem isBlank_closing (hc : closing = ']' ∨ closing = '}') : isBlank (.char closing) = false := by
  rcases hc with rfl | rfl <;> rfl

theorem endsNumeral_closing (hc : closing = ']' ∨ closing = '}') (hl : Blanks last)
    (after : Document) : EndsNumeral (last ++ .char closing :: after) := by
  cases last with
  | nil => rcases hc with rfl | rfl <;> exact endsNumeral_cons (by decide) _
  | cons symbol last =>
    have hs : isBlank symbol = true := hl symbol List.mem_cons_self
    rintro c ⟨⟩
    unfold isBlank at hs
    split at hs
    case h_5 => cases hs
    all_goals
      rename_i he
      obtain rfl := Symbol.char.inj he
      decide

/-- The entries are read up to the closing bracket. -/
theorem loops_entries {entry : σ → Reader σ} {state mid result : σ} {parts : List Document}
    (hc : closing = ']' ∨ closing = '}') (hf : Blanks blanks) (hb : Blanks between)
    (hl : Blanks last) (h : Reads (entry state) text mid) (hr : Absorbs entry mid parts result)
    (after : Document) : Loops (fun state => do
        let state ← entry state
        return if ← closes closing then .inr state else .inl state) state
      (blanks ++ (text ++ (separated between parts ++ (last ++ .char closing :: after))))
      result after := by
  induction hr generalizing state text blanks with
  | nil mid =>
    refine .done ((h.takes hf (endsNumeral_closing hc hl after)).bind ?_)
    have hne : closing ≠ ',' := by rcases hc with rfl | rfl <;> decide
    exact (takes_closes_bracket hl (isBlank_closing hc) hne after).bind (takes_pure _ _)
  | @cons mid next result part parts hp _ ih =>
    have hlength := h.opens.length_pos
    rw [separated, List.cons_append, List.append_assoc, List.append_assoc]
    refine .more ((h.takes hf (endsNumeral_cons (by decide) _)).bind
      ((takes_closes_comma closing blanks_nil _).bind (takes_pure _ _))) ?_ (ih hb hp)
    simp only [List.length_append, List.length_cons]
    omega

/-- A container behind its opening bracket. -/
theorem takes_entries {entry : σ → Reader σ} {start result : σ} {parts : List Document}
    (hc : closing = ']' ∨ closing = '}') (hb : Blanks between) (hl : Blanks last)
    (h : Absorbs entry start parts result) (after : Document) :
    Takes (entries closing entry start) (inside closing between last parts ++ after) result after := by
  cases h with
  | nil =>
    refine (takes_token blanks_nil (isBlank_closing hc) after).bind ?_
    show Takes (ite _ _ _) _ _ _
    rw [if_pos (beq_self_eq_true _)]
    exact (takes_skip _ _).bind (takes_pure _ _)
  | @cons _ mid _ text rest hp hr =>
    obtain ⟨c, tail, ht, hblank, hbracket, hbrace⟩ := hp.opens
    have hne : c ≠ closing := by rcases hc with rfl | rfl <;> assumption
    have hs := (loops_entries hc blanks_nil hb hl hp hr after).takes
    rw [inside]
    simp only [List.append_assoc, List.singleton_append, List.nil_append] at hs ⊢
    rw [ht, List.cons_append] at hs ⊢
    refine (takes_token hb hblank _).bind ?_
    show Takes (ite _ _ _) _ _ _
    rw [if_neg (by simpa using hne)]
    exact hs

/-- The items, latest first, in front of those read before. -/
theorem absorbs_items {item : Reader α} {write : α → Document} {values : List α}
    (h : ∀ a ∈ values, Reads item (write a) a) (seen : List α) :
    Absorbs (fun items => return (← item) :: items) seen (values.map write)
      (values.reverse ++ seen) := by
  induction values generalizing seen with
  | nil => exact .nil seen
  | cons a values ih =>
    rw [List.forall_mem_cons] at h
    rw [List.reverse_cons, List.append_assoc]
    exact .cons (h.1.map (· :: seen)) (ih h.2 (a :: seen))

theorem reads_list {item : Reader α} {write : α → Document} {values : List α} (hb : Blanks between)
    (hl : Blanks last) (h : ∀ a ∈ values, Reads item (write a) a) :
    Reads (list item) (container '[' ']' between last (values.map write)) values := by
  refine ⟨⟨'[', _, rfl, rfl, by decide, by decide⟩, fun {blanks after} hblanks _ => ?_⟩
  have he := takes_entries (.inl rfl) hb hl (absorbs_items h []) after
  refine (takes_token hblanks rfl _).bind ((takes_skip _ _).bind (he.bind ?_))
  rw [List.append_nil, List.reverse_reverse]
  exact takes_pure _ _

/-! ## Objects -/

theorem takes_name (hb : Blanks blanks) (name : String) (rest : Document) :
    Takes Reader.name (blanks ++ (quoted name ++ .char ':' :: rest)) name rest :=
  Dialect.takes_name Dialect.exact_plain hb name

theorem opens_field (gap : Document) (name : String) (text : Document) :
    Opens (field gap name text) := by
  obtain ⟨c, tail, ht, h⟩ := opens_quoted name
  exact ⟨c, _, by rw [field, ht, List.cons_append], h⟩

theorem reads_field {next : String → Reader β} {b : β} (hg : Blanks gap)
    (h : Reads (next name) text b) : Reads (Reader.name >>= next) (field gap name text) b := by
  refine ⟨opens_field gap name text, fun {blanks after} hb ha => ?_⟩
  rw [field, List.append_assoc, List.cons_append, List.append_assoc]
  exact (takes_name hb name _).bind (h.takes hg ha)

/-- The fields, put after those read before. -/
theorem absorbs_fields {item : Reader α} {write : α → Document} {entries : Fields α}
    (hg : Blanks gap) (h : ∀ entry ∈ entries, Reads item (write entry.2) entry.2) (seen : Fields α) :
    Absorbs (fun fields => return Fields.put fields (← Reader.name) (← item)) seen
      (entries.map fun entry => field gap entry.1 (write entry.2))
      (entries.foldl (fun fields entry => Fields.put fields entry.1 entry.2) seen) := by
  induction entries generalizing seen with
  | nil => exact .nil seen
  | cons entry rest ih =>
    rw [List.forall_mem_cons] at h
    exact .cons (reads_field hg (h.1.map fun a => Fields.put seen entry.1 a)) (ih h.2 _)

/-- An object, of which no name is repeated. -/
theorem reads_fields {item : Reader α} (write : α → Document) {entries : Fields α}
    (hb : Blanks between) (hl : Blanks last) (hg : Blanks gap) (hd : Fields.Distinct entries)
    (h : ∀ entry ∈ entries, Reads item (write entry.2) entry.2) :
    Reads (fields item)
      (container '{' '}' between last
        (entries.map fun entry => field gap entry.1 (write entry.2))) entries := by
  refine ⟨⟨'{', _, rfl, rfl, by decide, by decide⟩, fun {blanks after} hblanks _ => ?_⟩
  have he := takes_entries (.inr rfl) hb hl (absorbs_fields hg h []) after
  have hp : entries.foldl (fun fields entry => Fields.put fields entry.1 entry.2) [] = entries :=
    Fields.ofPairs_of_distinct hd
  rw [hp] at he
  exact (takes_token hblanks rfl _).bind ((takes_skip _ _).bind he)

/-! ## Records -/

variable {members : List (Member σ)} {member : Member σ} {draft draft' start : σ}

/-- A field that is known and not given yet is read into the draft. -/
theorem reads_namedMember (hm : members.find? (·.name == name) = some member)
    (hn : member.given draft = false) (hg : Blanks gap)
    (h : Reads (member.read draft) text draft') :
    Reads (namedMember members draft) (field gap name text) draft' := by
  refine ⟨opens_field gap name text, fun {blanks after} hb ha => ?_⟩
  rw [field, List.append_assoc, List.cons_append, List.append_assoc, quoted_append]
  refine (takes_expect hb rfl _).bind ((takes_text name).bind ?_)
  rw [hm]
  show Takes (ite _ _ _) _ _ _
  rw [hn, if_neg Bool.false_ne_true]
  exact (takes_expect blanks_nil rfl _).bind (h.takes hg ha)

/-- A record that is written as an object. -/
theorem reads_record {finish : σ → Option α} {parts : List Document} (hb : Blanks between)
    (hl : Blanks last) (h : Absorbs (namedMember members) start parts draft)
    (hf : finish draft = some a) :
    Reads (record members start finish) (container '{' '}' between last parts) a := by
  refine ⟨⟨'{', _, rfl, rfl, by decide, by decide⟩, fun {blanks after} hblanks _ => ?_⟩
  have he := takes_entries (.inr rfl) hb hl h after
  refine (takes_token hblanks rfl _).bind ((takes_skip _ _).bind (he.bind ?_))
  beta_reduce
  rw [hf]
  exact takes_pure _ _

/-! ## Over several lines -/

variable {depth : Nat}

theorem reads_array (toJson : α → Value) {item : Reader α} {values : List α}
    (h : ∀ a ∈ values, Reads item ((toJson a).symbols (depth + 1)) a) :
    Reads (list item) ((Value.array (values.map toJson)).symbols depth) values := by
  rw [Value.symbols_array, List.map_map]
  exact reads_list (blanks_line _) (blanks_line _) h

theorem reads_object (toJson : α → Value) {item : Reader α} {entries : Fields α}
    (hd : Fields.Distinct entries)
    (h : ∀ entry ∈ entries, Reads item ((toJson entry.2).symbols (depth + 1)) entry.2) :
    Reads (fields item)
      ((Value.object (entries.map fun entry => (entry.1, toJson entry.2))).symbols depth)
      entries := by
  rw [Value.symbols_object, List.map_map]
  exact reads_fields (fun a => (toJson a).symbols (depth + 1)) (blanks_line _) (blanks_line _)
    blanks_space hd h

theorem reads_record_object {finish : σ → Option α} {entries : List (String × Value)}
    (h : Absorbs (namedMember members) start (entries.map (Value.entrySymbols (depth + 1))) draft)
    (hf : finish draft = some a) :
    Reads (record members start finish) ((Value.object entries).symbols depth) a := by
  rw [Value.symbols_object]
  exact reads_record (blanks_line _) (blanks_line _) h hf

end Reader

end TreeSeq.Json
