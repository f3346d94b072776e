import TreeSeq.Manifest
import TreeSeq.Proofs.Json.Record
import TreeSeq.Proofs.Text.Lines

/-!
# Manifests are read back

An entry is written as an object on one line: no text breaks the line, since line feeds are
escaped in strings (`Unbroken`), and the line is not blank. A manifest is read line by line, so
the entries are read back in their order, as long as their counts have 64 bits
(`Entry.Storable`).

* `load_spaced`: blank lines among those of the entries change nothing;
* `load_of_save`: what is written is read back;
* `load_of_lines`: both, with what is on each line.
-/

namespace TreeSeq

open Document (ofText)
open Text (dropLastIf)

namespace Json

/-! ## On one line -/

namespace Value

/-- Is it neither an array nor an object? -/
def isPlain : Value → Bool
  | array _ | object _ => false
  | _ => true

/-- The symbols of a field on one line. -/
def entryOnLine (entry : String × Value) : Document :=
  field [] entry.1 (entry.2.symbols 0)

theorem ofText_compactOnto {value : Value} (h : value.isPlain = true) (out : String) :
    ofText (value.compactOnto out) = ofText out ++ value.symbols 0 := by
  cases value with
  | null | bool _ | number _ => rw [compactOnto, Document.ofText_append, symbols]
  | string s => rw [compactOnto, ofText_quoteOnto, symbols]
  | array _ | object _ => cases h

theorem ofText_compactField {entry : String × Value} (h : entry.2.isPlain = true) (out : String) :
    ofText (entry.2.compactOnto ((quoteOnto out entry.1).push ':')) =
      ofText out ++ entryOnLine entry := by
  rw [ofText_compactOnto h, Document.ofText_push, ofText_quoteOnto, entryOnLine, field]
  simp only [List.append_assoc, List.cons_append, List.nil_append]

theorem ofText_compactFields {fields : List (String × Value)}
    (h : ∀ entry ∈ fields, entry.2.isPlain = true) (out : String) :
    ofText (compactFields out fields) = ofText out ++ separated [] (fields.map entryOnLine) := by
  induction fields generalizing out with
  | nil => rw [compactFields, List.map_nil, separated, List.append_nil]
  | cons entry rest ih =>
    obtain ⟨hentry, hrest⟩ := List.forall_mem_cons.mp h
    rw [compactFields, ih hrest, ofText_compactField hentry, Document.ofText_push, List.map_cons,
      separated]
    simp only [List.append_assoc, List.cons_append, List.nil_append]

/-- An object without containers in it, symbol by symbol. -/
theorem ofText_compact_object {fields : List (String × Value)}
    (h : ∀ entry ∈ fields, entry.2.isPlain = true) :
    ofText (object fields).compact = container '{' '}' [] [] (fields.map entryOnLine) := by
  cases fields with
  | nil => rfl
  | cons entry rest =>
    obtain ⟨hentry, hrest⟩ := List.forall_mem_cons.mp h
    have hbrace : ofText "" ++ [.char '{'] = [.char '{'] := rfl
    rw [compact, compactOnto, Document.ofText_push, ofText_compactFields hrest,
      ofText_compactField hentry, Document.ofText_push, hbrace, List.map_cons, container, inside]
    simp only [List.append_assoc, List.cons_append, List.nil_append]

end Value

/-! ## No line feeds -/

/-- There is no line feed. -/
def Unbroken (text : Document) : Prop :=
  .char '\n' ∉ text

instance (text : Document) : Decidable (Unbroken text) :=
  inferInstanceAs (Decidable (_ ∉ _))

theorem unbroken_append {front back : Document} :
    Unbroken (front ++ back) ↔ Unbroken front ∧ Unbroken back := by
  rw [Unbroken, List.mem_append, not_or, Unbroken, Unbroken]

theorem unbroken_cons {symbol : Symbol} {text : Document} :
    Unbroken (symbol :: text) ↔ symbol ≠ .char '\n' ∧ Unbroken text := by
  rw [Unbroken, List.mem_cons, not_or, ne_comm, Unbroken]

theorem ne_feed_hexDigit : ∀ n < 0x20, hexDigit (n / 16) ≠ '\n' ∧ hexDigit (n % 16) ≠ '\n' := by
  decide

/-- In a string a line feed is escaped. -/
theorem unbroken_escaped (c : Char) : Unbroken (ofText (escaped c)) := by
  unfold escaped
  split
  case h_8 =>
    split
    · rename_i hc
      obtain ⟨hhigh, hlow⟩ := ne_feed_hexDigit _ hc
      rw [Document.ofText_ofList]
      simp [Unbroken, hhigh.symm, hlow.symm]
    · rename_i hc
      rw [Char.toString, String.singleton_eq_ofList, Document.ofText_ofList]
      intro hm
      have he : c = '\n' := by simpa [eq_comm] using hm
      exact hc (he ▸ by decide)
  all_goals decide

theorem unbroken_quoted (s : String) : Unbroken (quoted s) := by
  have htext : Unbroken (escapedText s) := by
    rw [escapedText, Unbroken, List.mem_flatMap]
    rintro ⟨c, -, hc⟩
    exact unbroken_escaped c hc
  rw [quoted, unbroken_cons, unbroken_append]
  exact ⟨by decide, htext, by decide⟩

theorem unbroken_integer (n : Int) : Unbroken (ofText (Number.integer n).text) := by
  rw [ofText_integer, unbroken_append]
  refine ⟨by split <;> decide, fun hm => ?_⟩
  obtain ⟨c, hc, he⟩ := List.mem_map.mp hm
  have hd := isDigit_of_mem_toDigits hc
  rw [Symbol.char.inj he] at hd
  cases hd

theorem unbroken_entryOnLine {entry : String × Value} (h : Unbroken (entry.2.symbols 0)) :
    Unbroken (Value.entryOnLine entry) := by
  rw [Value.entryOnLine, field, List.nil_append, unbroken_append, unbroken_cons]
  exact ⟨unbroken_quoted _, by decide, h⟩

theorem unbroken_separated {parts : List Document} (h : ∀ part ∈ parts, Unbroken part) :
    Unbroken (separated [] parts) := by
  induction parts with
  | nil => exact List.not_mem_nil
  | cons part rest ih =>
    obtain ⟨hpart, hrest⟩ := List.forall_mem_cons.mp h
    rw [separated, List.nil_append, unbroken_cons, unbroken_append]
    exact ⟨by decide, hpart, ih hrest⟩

/-- A value that is written without a line feed, and is no container. -/
structure Inline (value : Value) : Prop where
  plain : value.isPlain = true
  unbroken : Unbroken (value.symbols 0)

theorem inline_string (s : String) : Inline (.string s) :=
  ⟨rfl, unbroken_quoted s⟩

theorem inline_ofNat (n : Nat) : Inline (.ofNat n) :=
  ⟨rfl, unbroken_integer n⟩

theorem inline_ofText? (text : Option String) : Inline (.ofText? text) := by
  cases text with
  | none => exact ⟨rfl, by decide⟩
  | some text => exact inline_string text

/-- An object on one line is a line, and not a blank one. -/
theorem isLine_compact_object {fields : List (String × Value)}
    (h : ∀ entry ∈ fields, Inline entry.2) :
    Text.IsLine (Value.object fields).compact ∧
      Text.allBlank (Value.object fields).compact = false := by
  have hparts : ∀ part ∈ fields.map Value.entryOnLine, Unbroken part := by
    intro part hm
    obtain ⟨entry, he, rfl⟩ := List.mem_map.mp hm
    exact unbroken_entryOnLine (h entry he).unbroken
  obtain ⟨body, hbody, hb⟩ : ∃ body, Unbroken body ∧
      ofText (Value.object fields).compact = .char '{' :: (body ++ [.char '}']) := by
    rw [Value.ofText_compact_object fun entry he => (h entry he).plain, container]
    cases hm : fields.map Value.entryOnLine with
    | nil => exact ⟨[], List.not_mem_nil, rfl⟩
    | cons part rest =>
      obtain ⟨hpart, hrest⟩ := List.forall_mem_cons.mp (hm ▸ hparts)
      refine ⟨part ++ separated [] rest, unbroken_append.mpr ⟨hpart, unbroken_separated hrest⟩, ?_⟩
      rw [inside, List.nil_append, List.nil_append, List.append_assoc]
  rw [ofText] at hb
  refine ⟨⟨fun hm => ?_, fun hl => ?_⟩, ?_⟩
  · have hs := List.mem_map_of_mem (f := Symbol.char) hm
    rw [hb] at hs
    exact (unbroken_cons.mpr ⟨by decide, unbroken_append.mpr ⟨hbody, by decide⟩⟩) hs
  · have hs := congrArg List.getLast? hb
    rw [List.getLast?_map, hl, List.getLast?_cons, List.getLast?_concat] at hs
    cases hs
  · cases hc : (Value.object fields).compact.toList with
    | nil =>
      rw [hc] at hb
      cases hb
    | cons c rest =>
      rw [hc, List.map_cons] at hb
      obtain rfl : c = '{' := Symbol.char.inj (List.cons.inj hb).1
      rw [Text.allBlank, hc]
      rfl

end Json

/-! ## Entries -/

namespace Manifest

open Json (Inline Value inline_ofNat inline_ofText? inline_string)
open Json.Reader

variable {entry : Entry} {entries : List Entry}

theorem reads_statusReader (status : Status) :
    Reads Entry.statusReader (Json.quoted status.word) status := by
  refine ⟨opens_quoted _, fun {blanks after} hb ha => ?_⟩
  have hstring := (reads_string status.word).takes blanks_nil ha
  rw [Json.quoted_append] at hstring ⊢
  refine (takes_token hb rfl _).bind (hstring.bind ?_)
  cases status <;> exact takes_pure _ _

theorem reads_nullable_ofText? (text : Option String) :
    Reads (nullable string) ((Value.ofText? text).symbols 0) text := by
  cases text with
  | none =>
    refine ⟨⟨'n', _, rfl, rfl, by decide, by decide⟩, fun hb _ => ?_⟩
    exact (takes_token hb rfl _).bind ((takes_word "null".toList _).bind (takes_pure _ _))
  | some text =>
    refine reads_nullable_some (reads_string text) ?_
    rintro ⟨⟩

namespace Entry

/-- An entry that a manifest can hold: its count has 64 bits. -/
def Storable (entry : Entry) : Prop :=
  entry.items < UInt64.size

/-- The fields that every entry is written with. -/
def ownFields (entry : Entry) : List (String × Value) :=
  [("stage", .string entry.stage), ("input", .string entry.input),
    ("output", .ofText? entry.output), ("status", .string entry.status.word),
    ("items", .ofNat entry.items)]

/-- The fields that an entry is written with. -/
def fields (entry : Entry) : List (String × Value) :=
  entry.ownFields ++
    match entry.error with
    | some error => [("error", .string error)]
    | none => []

theorem inline_fields (entry : Entry) : ∀ field ∈ entry.fields, Inline field.2 := by
  rw [fields, List.forall_mem_append]
  simp only [ownFields, List.forall_mem_cons]
  refine ⟨⟨inline_string _, inline_string _, inline_ofText? _, inline_string _, inline_ofNat _,
    List.forall_mem_nil _⟩, ?_⟩
  cases entry.error with
  | none => exact List.forall_mem_nil _
  | some error => exact List.forall_mem_singleton.mpr (inline_string error)

theorem isLine_toJson (entry : Entry) :
    Text.IsLine entry.toJson.compact ∧ Text.allBlank entry.toJson.compact = false :=
  Json.isLine_compact_object entry.inline_fields

/-- The fields that every entry has, in front of an error. -/
theorem absorbs_ownFields (h : entry.Storable) {others : List (String × Value)} {draft : Draft}
    (ho : Absorbs (namedMember members) ⟨some entry.stage, some entry.input, some entry.output,
      some entry.status, some entry.items, none⟩ (others.map Value.entryOnLine) draft) :
    Absorbs (namedMember members) .empty
      ((entry.ownFields ++ others).map Value.entryOnLine) draft := by
  refine .cons (reads_namedMember rfl rfl blanks_nil ((reads_string _).map _)) ?_
  refine .cons (reads_namedMember rfl rfl blanks_nil ((reads_string _).map _)) ?_
  refine .cons (reads_namedMember rfl rfl blanks_nil ((reads_nullable_ofText? _).map _)) ?_
  refine .cons (reads_namedMember rfl rfl blanks_nil ((reads_statusReader _).map _)) ?_
  exact .cons (reads_namedMember rfl rfl blanks_nil ((reads_natural h).map _)) ho

/-- An entry is read back from its line. -/
theorem reads_toJson (h : entry.Storable) : Reads reader (ofText entry.toJson.compact) entry := by
  have hl : ofText entry.toJson.compact =
      Json.container '{' '}' [] [] (entry.fields.map Value.entryOnLine) :=
    Value.ofText_compact_object fun field hm => (entry.inline_fields field hm).plain
  obtain ⟨stage, input, output, status, items, error⟩ := entry
  rw [hl]
  cases error with
  | none => exact reads_record blanks_nil blanks_nil (absorbs_ownFields h (.nil _)) rfl
  | some error =>
    have herror : Absorbs (namedMember members)
        ⟨some stage, some input, some output, some status, some items, none⟩
        ([("error", Value.string error)].map Value.entryOnLine)
        ⟨some stage, some input, some output, some status, some items, some (some error)⟩ :=
      .cons (reads_namedMember rfl rfl blanks_nil ((reads_nullable_ofText? (some error)).map _))
        (.nil _)
    exact reads_record blanks_nil blanks_nil (absorbs_ownFields h herror) rfl

end Entry

/-- The entries are read off the lines that are not blank. -/
theorem readLines_spaced {lines : List String} (h : ∀ entry ∈ entries, entry.Storable)
    (hl : lines.filter (!Text.allBlank ·) = entries.map (·.toJson.compact)) (read : List Entry) :
    readLines read (lines.map fun line => ofText (String.ofList (dropLastIf '\r' line.toList))) =
      .ok (read.reverse ++ entries) := by
  induction lines generalizing entries read with
  | nil =>
    obtain rfl := List.map_eq_nil_iff.mp hl.symm
    rw [List.map_nil, readLines, List.append_nil]
  | cons line rest ih =>
    rw [List.map_cons, readLines, Document.text?_ofText]
    simp only
    cases hb : Text.allBlank line with
    | true =>
      rw [List.filter_cons_of_neg (by rw [hb]; exact Bool.false_ne_true)] at hl
      rw [if_pos (Text.allBlank_dropLastIf hb '\r'), ih h hl]
    | false =>
      rw [List.filter_cons_of_pos (by rw [hb]; rfl)] at hl
      obtain ⟨entry, others, rfl, rfl, hrest⟩ := List.map_eq_cons_iff.mp hl.symm
      obtain ⟨hentry, hothers⟩ := List.forall_mem_cons.mp h
      rw [Text.dropLastIf_of_getLast? entry.isLine_toJson.1.2, String.ofList_toList,
        if_neg (by rw [hb]; exact Bool.false_ne_true), (Entry.reads_toJson hentry).document]
      simp only
      rw [ih hothers hrest.symm, List.reverse_cons, List.append_assoc, List.singleton_append]

/-- A manifest is read back from its lines, whatever blank lines are among them. -/
theorem load_spaced {lines : List String} (h : ∀ entry ∈ entries, entry.Storable)
    (hf : ∀ line ∈ lines, '\n' ∉ line.toList)
    (hl : lines.filter (!Text.allBlank ·) = entries.map (·.toJson.compact)) :
    load (Text.unlines lines).toUTF8 = .ok entries := by
  rw [load, Document.ofBytes_toUTF8, Document.lines_ofText, Text.lines_unlines_of_unbroken hf,
    List.map_map]
  exact readLines_spaced h hl []

/-- An entry is written as a line. -/
theorem isLine_of_mem {line : String} (h : line ∈ entries.map (·.toJson.compact)) :
    Text.IsLine line := by
  obtain ⟨entry, -, rfl⟩ := List.mem_map.mp h
  exact entry.isLine_toJson.1

/-- None of the lines that are written is blank. -/
theorem filter_not_blank (entries : List Entry) :
    (entries.map (·.toJson.compact)).filter (!Text.allBlank ·) =
      entries.map (·.toJson.compact) := by
  refine List.filter_eq_self.mpr fun line hm => ?_
  obtain ⟨entry, -, rfl⟩ := List.mem_map.mp hm
  rw [entry.isLine_toJson.2]
  rfl

/-- A manifest is read back. -/
theorem load_of_save (h : ∀ entry ∈ entries, entry.Storable) :
    load (save entries).toUTF8 = .ok entries :=
  load_spaced h (fun _ hm => (isLine_of_mem hm).1) (filter_not_blank entries)

/-- A manifest has the entries on a line each, with no line feed in any of them. It is read
back, also with blank lines put between its lines, before them or behind them. -/
theorem load_of_lines (h : ∀ entry ∈ entries, entry.Storable) :
    load (save entries).toUTF8 = .ok entries ∧
      Text.lines (save entries) = entries.map (·.toJson.compact) ∧
      (∀ entry ∈ entries, '\n' ∉ entry.toJson.compact.toList) ∧
      ∀ lines : List String, (∀ line ∈ lines, '\n' ∉ line.toList) →
        lines.filter (!Text.allBlank ·) = entries.map (·.toJson.compact) →
          load (Text.unlines lines).toUTF8 = .ok entries :=
  ⟨load_of_save h, Text.lines_unlines fun _ hm => isLine_of_mem hm,
    fun entry _ => entry.isLine_toJson.1.1, fun _ => load_spaced h⟩

/-- An entry whose texts hold every kind of line end, a quote, a backslash and a null. -/
def Entry.ofLineEnds : Entry :=
  ⟨"\n", "in\r\nput\r", some "\u2028\"\\\u2029", .ok, UInt64.size - 1, some "\u0085\x00\n\n"⟩

theorem load_of_lines_ofLineEnds :
    load (Text.unlines ["\r", Entry.ofLineEnds.toJson.compact, "\u2028 \u3000\r\r",
        (Entry.failed "encode" "\t" "").toJson.compact, ""]).toUTF8 =
      .ok [Entry.ofLineEnds, Entry.failed "encode" "\t" ""] := by
  have hstorable : ∀ entry ∈ [Entry.ofLineEnds, Entry.failed "encode" "\t" ""],
      entry.Storable := by
    simp only [List.forall_mem_cons, Entry.Storable]
    decide
  refine (load_of_lines hstorable).2.2.2 _ ?_ ?_
  · simp only [List.forall_mem_cons]
    exact ⟨by decide, (Entry.isLine_toJson _).1.1, by decide, (Entry.isLine_toJson _).1.1,
      by decide, List.forall_mem_nil _⟩
  · simp only [List.filter_cons, (Entry.isLine_toJson _).2]
    rfl

end Manifest

end TreeSeq
