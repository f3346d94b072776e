import TreeSeq.Json.Parser
import TreeSeq.Proofs.Json.Numerals
import TreeSeq.Proofs.Json.Strings

/-!
# Values are read back

The printer writes a value over several lines, and the reader takes it back, with
repeated names merged.

* `Dialect.Fits`: which values a dialect reads as they are written;
* `Dialect.Finds`: wherever the value is wanted, the reader goes on as if it had
  found the merged value;
* `Dialect.Fits.finds`: the first gives the second, by induction on the value, as
  containers are read entry by entry (`loops_items`, `loops_fields`);
* `parse_pretty`: a whole document.
-/

namespace TreeSeq.Json

open Document (ofText)
open Reader

/-! ## Symbols around values -/

theorem blanks_line (depth : Nat) : Blanks (line depth) := by
  intro symbol hm
  rcases List.mem_cons.mp hm with rfl | hm
  · rfl
  · rw [List.eq_of_mem_replicate hm]
    rfl

theorem blanks_space : Blanks [.char ' '] := by
  simp [Blanks, isBlank]

theorem endsNumeral_cons {c : Char}
    (h : Text.isDigit c = false ∧ c ≠ '.' ∧ c ≠ 'e' ∧ c ≠ 'E') (rest : Document) :
    EndsNumeral (.char c :: rest) := by
  rintro _ ⟨⟩
  exact h

theorem endsNumeral_line (depth : Nat) (rest : Document) : EndsNumeral (line depth ++ rest) :=
  endsNumeral_cons (by decide) _

theorem endsNumeral_itemSymbols (depth depth' : Nat) (items : List Value) (rest : Document) :
    EndsNumeral (Value.itemSymbols depth items ++ (line depth' ++ rest)) := by
  cases items with
  | nil => exact endsNumeral_line _ _
  | cons item items => exact endsNumeral_cons (by decide) _

theorem endsNumeral_fieldSymbols (depth depth' : Nat) (fields : List (String × Value))
    (rest : Document) :
    EndsNumeral (Value.fieldSymbols depth fields ++ (line depth' ++ rest)) := by
  cases fields with
  | nil => exact endsNumeral_line _ _
  | cons field fields => exact endsNumeral_cons (by decide) _

/-- What starts like a value: neither with a blank nor with a closing bracket. -/
def Opens (text : Document) : Prop :=
  ∃ c tail, text = .char c :: tail ∧ isBlank (.char c) = false ∧ c ≠ ']' ∧ c ≠ '}'

theorem Opens.length_pos {text : Document} (h : Opens text) : 0 < text.length := by
  obtain ⟨c, tail, rfl, -⟩ := h
  exact Nat.succ_pos _

theorem isBlank_numeral {c : Char} (h : (c == '-' || Text.isDigit c) = true) :
    isBlank (.char c) = false := by
  unfold isBlank
  split <;> rename_i he
  case h_5 => rfl
  all_goals
    rw [Symbol.char.inj he] at h
    cases h

theorem opens_integer (n : Int) : Opens (ofText (Number.integer n).text) := by
  obtain ⟨c, tail, ht, hc⟩ := exists_head_integer n
  refine ⟨c, tail, ht, isBlank_numeral hc, ?_, ?_⟩
  · rintro rfl
    cases hc
  · rintro rfl
    cases hc

namespace Dialect

variable {dialect : Dialect} {around : List Open} {depth : Nat} {blanks input rest : Document}

/-- A value that the dialect reads as it is written, inside `around` containers: its
numbers are whole and held by 64 bits, and its containers may open. -/
inductive Fits (dialect : Dialect) : (around : Nat) → Value → Prop where
  | null {around : Nat} : Fits dialect around .null
  | bool {around : Nat} (b : Bool) : Fits dialect around (.bool b)
  | integer {around : Nat} {n : Int} (h : Int64.minValue.toInt ≤ n) (h' : n < UInt64.size) :
      Fits dialect around (.number (.integer n))
  | string {around : Nat} (s : String) : Fits dialect around (.string s)
  | array {around : Nat} {items : List Value} (h : dialect.depth.all (around < ·))
      (hi : ∀ item ∈ items, Fits dialect (around + 1) item) : Fits dialect around (.array items)
  | object {around : Nat} {fields : List (String × Value)} (h : dialect.depth.all (around < ·))
      (hf : ∀ field ∈ fields, Fits dialect (around + 1) field.2) :
      Fits dialect around (.object fields)

/-- The dialect reads strings and numbers for what they are. -/
structure Exact (dialect : Dialect) : Prop where
  string : dialect.string = Reader.text
  number : dialect.number = Reader.number

theorem exact_plain : plain.Exact :=
  ⟨rfl, rfl⟩

theorem exact_nested (depth : Nat) : (nested depth).Exact :=
  ⟨rfl, rfl⟩

/-! ## The start of a value -/

theorem takes_start_null (hb : Blanks blanks) :
    Takes (dialect.start around) (blanks ++ (ofText "null" ++ rest)) (.found .null around) rest :=
  (takes_token hb rfl _).bind ((takes_word "null".toList rest).bind (takes_pure _ _))

theorem takes_start_bool (hb : Blanks blanks) (b : Bool) :
    Takes (dialect.start around) (blanks ++ (ofText (if b then "true" else "false") ++ rest))
      (.found (.bool b) around) rest := by
  cases b with
  | false =>
    exact (takes_token hb rfl _).bind ((takes_word "false".toList rest).bind (takes_pure _ _))
  | true =>
    exact (takes_token hb rfl _).bind ((takes_word "true".toList rest).bind (takes_pure _ _))

theorem takes_start_string (he : dialect.Exact) (hb : Blanks blanks) (s : String) :
    Takes (dialect.start around) (blanks ++ (quoted s ++ rest)) (.found (.string s) around)
      rest := by
  rw [quoted_append]
  refine (takes_token hb rfl _).bind ((takes_skip _ _).bind ?_)
  rw [he.string]
  exact (takes_text s).bind (takes_pure _ _)

theorem takes_start_integer (he : dialect.Exact) (hb : Blanks blanks) {n : Int}
    (h : Int64.minValue.toInt ≤ n) (h' : n < UInt64.size) (hr : EndsNumeral rest) :
    Takes (dialect.start around) (blanks ++ (ofText (Number.integer n).text ++ rest))
      (.found (.number (.integer n)) around) rest := by
  have hnumber := takes_number h h' hr
  obtain ⟨c, tail, ht, hc⟩ := exists_head_integer n
  rw [ht] at hnumber ⊢
  refine (takes_token hb (isBlank_numeral hc) _).bind ?_
  split <;> rename_i he'
  · cases he'
  · cases he'
  all_goals obtain rfl := Symbol.char.inj (Option.some.inj he')
  · cases hc
  · cases hc
  · cases hc
  · cases hc
  · cases hc
  · cases hc
  · rw [if_pos hc, he.number]
    exact hnumber.bind (takes_pure _ _)

/-- An opening bracket, if the container may open. -/
theorem takes_start_array (hb : Blanks blanks) (hm : dialect.mayOpen around = true) {focus : Focus}
    (h : Takes (do
      if (← token) == some (.char ']') then
        skip
        return .found (.array []) around
      else
        return .wanted (.array [] :: around)) input focus rest) :
    Takes (dialect.start around) (blanks ++ .char '[' :: input) focus rest := by
  refine (takes_token hb rfl _).bind ?_
  show Takes (ite _ _ _) _ _ _
  rw [if_pos hm]
  exact (takes_skip _ _).bind h

theorem takes_start_object (hb : Blanks blanks) (hm : dialect.mayOpen around = true) {focus : Focus}
    (h : Takes (do
      if (← token) == some (.char '}') then
        skip
        return .found (.object []) around
      else
        return .wanted (.object [] (← dialect.name) :: around)) input focus rest) :
    Takes (dialect.start around) (blanks ++ .char '{' :: input) focus rest := by
  refine (takes_token hb rfl _).bind ?_
  show Takes (ite _ _ _) _ _ _
  rw [if_pos hm]
  exact (takes_skip _ _).bind h

theorem takes_name (he : dialect.Exact) (hb : Blanks blanks) (name : String) :
    Takes dialect.name (blanks ++ (quoted name ++ .char ':' :: rest)) name rest := by
  have hcolon : Takes (expect ':') (.char ':' :: rest) () rest := takes_expect blanks_nil rfl rest
  rw [quoted_append]
  refine (takes_expect hb rfl _).bind ?_
  rw [he.string]
  exact (takes_text name).bind (hcolon.bind (takes_pure _ _))

/-! ## The end of an entry -/

theorem takes_close_item (value : Value) (items : List Value) (rest : Document) :
    Takes (dialect.close value (.array items) around) (.char ',' :: rest)
      (.wanted (.array (value :: items) :: around)) rest :=
  (takes_closes_comma ']' blanks_nil rest).bind (takes_pure _ _)

theorem takes_close_array (hb : Blanks blanks) (value : Value) (items : List Value)
    (rest : Document) :
    Takes (dialect.close value (.array items) around) (blanks ++ .char ']' :: rest)
      (.found (.array (value :: items).reverse) around) rest :=
  (takes_closes_bracket hb rfl (by decide) rest).bind (takes_pure _ _)

theorem takes_close_field (he : dialect.Exact) (hb : Blanks blanks) (value : Value)
    (fields : Fields Value) (name next : String) (rest : Document) :
    Takes (dialect.close value (.object fields name) around)
      (.char ',' :: (blanks ++ (quoted next ++ .char ':' :: rest)))
      (.wanted (.object (Fields.put fields name value) next :: around)) rest :=
  (takes_closes_comma '}' blanks_nil _).bind ((takes_name he hb next).bind (takes_pure _ _))

theorem takes_close_object (hb : Blanks blanks) (value : Value) (fields : Fields Value)
    (name : String) (rest : Document) :
    Takes (dialect.close value (.object fields name) around) (blanks ++ .char '}' :: rest)
      (.found (.object (Fields.put fields name value)) around) rest :=
  (takes_closes_bracket hb rfl (by decide) rest).bind (takes_pure _ _)

/-! ## Whole values -/

/-- Wherever the value is wanted, the reader goes on as if it had found the merged
value. -/
def Finds (dialect : Dialect) (around : List Open) (depth : Nat) (value : Value) : Prop :=
  ∀ {blanks after rest : Document} {result : Value}, Blanks blanks → EndsNumeral after →
    Loops dialect.step (.found value.merged around) after result rest →
    Loops dialect.step (.wanted around) (blanks ++ (value.symbols depth ++ after)) result rest

variable {focus : Focus} {value result : Value} {mid after : Document}

theorem loops_wanted (h : Takes (dialect.start around) input focus mid)
    (hl : mid.length < input.length) (hr : Loops dialect.step focus mid result rest) :
    Loops dialect.step (.wanted around) input result rest :=
  .more (h.bind (takes_pure _ _)) hl hr

theorem loops_found {container : Open}
    (h : Takes (dialect.close value container around) input focus mid)
    (hl : mid.length < input.length) (hr : Loops dialect.step focus mid result rest) :
    Loops dialect.step (.found value (container :: around)) input result rest :=
  .more (h.bind (takes_pure _ _)) hl hr

/-- The items after the first, up to the closing bracket. -/
theorem loops_items {items : List Value} {depth' : Nat} {seen : List Value}
    (hi : ∀ item ∈ items, ∀ seen, Finds dialect (.array seen :: around) depth item)
    (h : Loops dialect.step
      (.found (.array (seen.reverse ++ value :: Value.mergedItems items)) around) after result rest) :
    Loops dialect.step (.found value (.array seen :: around))
      (Value.itemSymbols depth items ++ (line depth' ++ .char ']' :: after)) result rest := by
  induction items generalizing value seen with
  | nil =>
    have hc : Takes (dialect.close value (.array seen) around) (line depth' ++ .char ']' :: after)
        (.found (.array (seen.reverse ++ [value])) around) after := by
      rw [← List.reverse_cons]
      exact takes_close_array (blanks_line depth') value seen after
    refine loops_found hc ?_ h
    simp only [List.length_append, List.length_cons]
    omega
  | cons item items ih =>
    rw [List.forall_mem_cons] at hi
    rw [Value.itemSymbols, List.cons_append, List.append_assoc, List.append_assoc]
    refine loops_found (takes_close_item value seen _) (Nat.lt_succ_self _) ?_
    refine hi.1 (value :: seen) (blanks_line depth) (endsNumeral_itemSymbols _ _ _ _) ?_
    refine ih hi.2 ?_
    rw [List.reverse_cons, List.append_assoc]
    exact h

/-- The fields after the first, up to the closing bracket. -/
theorem loops_fields (he : dialect.Exact) {fields : List (String × Value)} {depth' : Nat}
    {seen : Fields Value} {name : String}
    (hf : ∀ field ∈ fields, ∀ seen, Finds dialect (.object seen field.1 :: around) depth field.2)
    (h : Loops dialect.step (.found (.object ((Value.mergedFields fields).foldl
      (fun fields field => Fields.put fields field.1 field.2) (Fields.put seen name value))) around)
      after result rest) :
    Loops dialect.step (.found value (.object seen name :: around))
      (Value.fieldSymbols depth fields ++ (line depth' ++ .char '}' :: after)) result rest := by
  induction fields generalizing value seen name with
  | nil =>
    refine loops_found (takes_close_object (blanks_line depth') value seen name after) ?_ h
    simp only [List.length_append, List.length_cons]
    omega
  | cons field fields ih =>
    obtain ⟨next, entry⟩ := field
    rw [List.forall_mem_cons] at hf
    have hs : Value.fieldSymbols depth ((next, entry) :: fields) ++
        (line depth' ++ .char '}' :: after) =
        .char ',' :: (line depth ++ (quoted next ++ .char ':' :: ([.char ' '] ++
          (entry.symbols depth ++ (Value.fieldSymbols depth fields ++
            (line depth' ++ .char '}' :: after)))))) := by
      simp only [Value.fieldSymbols, List.append_assoc, List.cons_append, List.nil_append]
    rw [hs]
    refine loops_found (takes_close_field he (blanks_line depth) value seen name next _) ?_ ?_
    · simp only [List.length_append, List.length_cons]
      omega
    · exact hf.1 _ blanks_space (endsNumeral_fieldSymbols _ _ _ _) (ih hf.2 h)

theorem Fits.opens {around : Nat} (h : dialect.Fits around value) (depth : Nat) :
    Opens (value.symbols depth) := by
  cases h with
  | null => exact ⟨'n', _, rfl, rfl, by decide⟩
  | bool b => cases b with
    | false => exact ⟨'f', _, rfl, rfl, by decide⟩
    | true => exact ⟨'t', _, rfl, rfl, by decide⟩
  | @integer _ n => exact opens_integer n
  | string s => exact ⟨'"', _, rfl, rfl, by decide⟩
  | @array _ items => cases items with
    | nil => exact ⟨'[', _, rfl, rfl, by decide⟩
    | cons item items => exact ⟨'[', _, rfl, rfl, by decide⟩
  | @object _ fields => cases fields with
    | nil => exact ⟨'{', _, rfl, rfl, by decide⟩
    | cons field fields => exact ⟨'{', _, rfl, rfl, by decide⟩

/-- A value that the reader takes in one step is found. -/
theorem finds_of_takes (hf : dialect.Fits around.length value) (hv : value.merged = value)
    (h : ∀ {blanks rest : Document}, Blanks blanks → EndsNumeral rest →
      Takes (dialect.start around) (blanks ++ (value.symbols depth ++ rest))
        (.found value around) rest) :
    Finds dialect around depth value := by
  intro blanks after rest result hb hr hl
  rw [hv] at hl
  refine loops_wanted (h hb hr) ?_ hl
  have := (hf.opens depth).length_pos
  simp only [List.length_append]
  omega

/-- An array is found if its items are. -/
theorem finds_array {item : Value} {items : List Value} (hm : dialect.mayOpen around = true)
    {n : Nat} (hf : dialect.Fits n item)
    (hi : ∀ entry ∈ item :: items, ∀ seen,
      Finds dialect (.array seen :: around) (depth + 1) entry) :
    Finds dialect around depth (.array (item :: items)) := by
  intro blanks after rest result hb hr hl
  obtain ⟨c, tail, hs, hc, hne, -⟩ := hf.opens (depth + 1)
  have hstart : Takes (dialect.start around)
      (blanks ++ ((Value.array (item :: items)).symbols depth ++ after))
      (.wanted (.array [] :: around)) (item.symbols (depth + 1) ++
        (Value.itemSymbols (depth + 1) items ++ (line depth ++ .char ']' :: after))) := by
    rw [Value.symbols]
    simp only [List.append_assoc, List.cons_append, List.nil_append]
    refine takes_start_array hb hm ?_
    rw [hs]
    refine (takes_token (blanks_line _) hc _).bind ?_
    rw [if_neg (by simpa using hne)]
    exact takes_pure _ _
  rw [List.forall_mem_cons] at hi
  refine loops_wanted hstart ?_ ?_
  · simp only [Value.symbols, List.length_append, List.length_cons]
    omega
  · exact hi.1 [] blanks_nil (endsNumeral_itemSymbols _ _ _ _) (loops_items hi.2 hl)

/-- An object is found if its values are. -/
theorem finds_object (he : dialect.Exact) {name : String} {entry : Value}
    {fields : List (String × Value)} (hm : dialect.mayOpen around = true)
    (hf : ∀ field ∈ (name, entry) :: fields, ∀ seen,
      Finds dialect (.object seen field.1 :: around) (depth + 1) field.2) :
    Finds dialect around depth (.object ((name, entry) :: fields)) := by
  intro blanks after rest result hb hr hl
  have hstart : Takes (dialect.start around)
      (blanks ++ ((Value.object ((name, entry) :: fields)).symbols depth ++ after))
      (.wanted (.object [] name :: around)) ([.char ' '] ++ (entry.symbols (depth + 1) ++
        (Value.fieldSymbols (depth + 1) fields ++ (line depth ++ .char '}' :: after)))) := by
    rw [Value.symbols]
    simp only [List.append_assoc, List.cons_append, List.nil_append]
    refine takes_start_object hb hm ?_
    rw [quoted_append]
    refine (takes_token (blanks_line _) rfl _).bind ?_
    rw [if_neg (by decide), ← quoted_append]
    exact (takes_name he blanks_nil name).bind (takes_pure _ _)
  rw [List.forall_mem_cons] at hf
  refine loops_wanted hstart ?_ ?_
  · simp only [Value.symbols, List.length_append, List.length_cons]
    omega
  · exact hf.1 [] blanks_space (endsNumeral_fieldSymbols _ _ _ _) (loops_fields he hf.2 hl)

/-- A value that fits is found. -/
theorem Fits.finds (he : dialect.Exact) {n : Nat} (h : dialect.Fits n value) {around : List Open}
    (hn : around.length = n) (depth : Nat) : Finds dialect around depth value := by
  induction h generalizing around depth with
  | null => exact finds_of_takes .null rfl fun hb _ => takes_start_null hb
  | bool b => exact finds_of_takes (.bool b) rfl fun hb _ => takes_start_bool hb b
  | integer h h' =>
    exact finds_of_takes (.integer h h') rfl fun hb hr => takes_start_integer he hb h h' hr
  | string s => exact finds_of_takes (.string s) rfl fun hb _ => takes_start_string he hb s
  | @array n items h hi ih =>
    subst hn
    cases items with
    | nil =>
      refine finds_of_takes (.array h hi) rfl fun hb _ => takes_start_array hb h ?_
      exact (takes_token blanks_nil rfl _).bind ((takes_skip _ _).bind (takes_pure _ _))
    | cons item items =>
      exact finds_array h (hi item List.mem_cons_self) fun entry hm seen => ih entry hm rfl _
  | @object n fields h hf ih =>
    subst hn
    cases fields with
    | nil =>
      refine finds_of_takes (.object h hf) rfl fun hb _ => takes_start_object hb h ?_
      exact (takes_token blanks_nil rfl _).bind ((takes_skip _ _).bind (takes_pure _ _))
    | cons field fields =>
      exact finds_object he h fun entry hm seen => ih entry hm rfl _

end Dialect

/-- What is written over several lines is read back, with repeated names merged. -/
theorem parse_pretty {value : Value} (h : Dialect.plain.Fits 0 value) :
    parse (ofText value.pretty) = .ok value.merged := by
  have hend : EndsNumeral [] := by
    rintro c ⟨⟩
  have hl : Loops Dialect.plain.step (.wanted []) ([] ++ (value.symbols 0 ++ [])) value.merged [] :=
    h.finds Dialect.exact_plain rfl 0 blanks_nil hend (.done (takes_pure _ _))
  rw [List.nil_append, List.append_nil, ← Value.ofText_pretty] at hl
  exact document_eq_ok hl.takes blanks_nil

end TreeSeq.Json
