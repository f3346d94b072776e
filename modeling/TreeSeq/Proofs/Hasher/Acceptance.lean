import TreeSeq.Proofs.Hasher.Streams

/-!
# Which files are text, and which are token streams

Files are read line by line up to the first line that is no good, so a file is accepted just
if each of its lines is, wherever it stands.

* `exists_ofVocabulary_iff`: which vocabularies have a hasher;
* `exists_addFile_iff`, `exists_hashFile_iff`: a text file has nothing but text on its lines;
* `exists_unhashFile_iff`: a file of token streams has text on its lines whose words are all
  ids of tokens.
-/

namespace TreeSeq

/-- Every line is text. -/
def Document.IsText (lines : List Document) : Prop :=
  ∀ line ∈ lines, ∃ text, line.text? = some text

/-- The word is the id of a token. -/
def Vocabulary.Numbers (vocabulary : Vocabulary) (word : String) : Prop :=
  ∃ id token, Text.readBelow? TokenStream.idLimit word = some id ∧
    vocabulary.idOf? token = some id

/-- Every line is text, and all words on it are ids of tokens. -/
def Vocabulary.NumbersAll (vocabulary : Vocabulary) (lines : List Document) : Prop :=
  ∀ line ∈ lines, ∃ text, line.text? = some text ∧ ∀ word ∈ Text.words text,
    vocabulary.Numbers word

theorem Vocabulary.exists_addLines_iff {vocabulary : Vocabulary} {lines : List Document} :
    (∃ grown, vocabulary.addLines lines = .ok grown) ↔ Document.IsText lines := by
  induction lines generalizing vocabulary with
  | nil => exact ⟨fun _ => List.forall_mem_nil _, fun _ => ⟨vocabulary, rfl⟩⟩
  | cons line rest ih =>
    rw [addLines, Document.IsText, List.forall_mem_cons]
    cases line.text? with
    | none => simp
    | some text => exact ih.trans ⟨fun h => ⟨⟨text, rfl⟩, h⟩, And.right⟩

theorem Vocabulary.exists_addFile_iff {vocabulary : Vocabulary} {bytes : ByteArray} :
    (∃ grown, vocabulary.addFile bytes = .ok grown) ↔
      Document.IsText (Document.ofBytes bytes).lines :=
  exists_addLines_iff

/-! ## Streams -/

/-- Items that are related to something by way of something else, each on its own. -/
theorem exists_forall₂_iff {α β γ : Type} {R : α → β → Prop} {S : β → γ → Prop} {items : List α} :
    (∃ mids ends, List.Forall₂ R items mids ∧ List.Forall₂ S mids ends) ↔
      ∀ item ∈ items, ∃ mid last, R item mid ∧ S mid last := by
  induction items with
  | nil => exact ⟨fun _ => List.forall_mem_nil _, fun _ => ⟨[], [], .nil, .nil⟩⟩
  | cons item rest ih =>
    rw [List.forall_mem_cons, ← ih]
    constructor
    · rintro ⟨_, _, hr, hs⟩
      cases hr with
      | cons hr hrs =>
        cases hs with
        | cons hs hss => exact ⟨⟨_, _, hr, hs⟩, _, _, hrs, hss⟩
    · rintro ⟨⟨mid, last, hr, hs⟩, mids, ends, hrs, hss⟩
      exact ⟨mid :: mids, last :: ends, .cons hr hrs, .cons hs hss⟩

namespace Hasher

variable {hasher : Hasher}

/-- A vocabulary has a hasher just if its ids are `0, 1, …`, each held by one token. -/
theorem exists_ofVocabulary_iff {vocabulary : Vocabulary} :
    (∃ hasher, ofVocabulary vocabulary = .ok hasher) ↔ vocabulary.Gapless := by
  rw [← Vocabulary.invert_ok_iff]
  constructor
  · rintro ⟨hasher, h⟩
    obtain rfl := ofVocabulary_eq_ok_iff.mp h
    exact ⟨hasher.inverse, hasher.inverts⟩
  · rintro ⟨inverse, h⟩
    exact ⟨⟨vocabulary, inverse, h⟩, ofVocabulary_eq_ok_iff.mpr rfl⟩

/-- A line of ids stands for something just if each word on it is the id of a token. -/
theorem exists_unhashLine_iff {line : String} :
    (∃ result, hasher.unhashLine line = .ok result) ↔
      ∀ word ∈ Text.words line, hasher.vocabulary.Numbers word := by
  obtain ⟨tokens, ht⟩ := hasher.exists_enumerates
  simp only [Vocabulary.Numbers, ht.idOf?_eq_some_iff]
  rw [← exists_forall₂_iff, unhashLine]
  have hwords : ∀ stream, TokenStream.parse line = .ok stream ↔ _ :=
    fun _ => TokenStream.parse_eq_ok_iff
  cases hp : TokenStream.parse line with
  | error e =>
    simp only [reduceCtorEq, exists_false, false_iff]
    rintro ⟨ids, found, hids, -⟩
    rw [(hwords _).mpr hids] at hp
    cases hp
  | ok stream =>
    simp only [unhash_eq_ok_iff ht]
    constructor
    · rintro ⟨_, found, hfound, -⟩
      exact ⟨stream, found, (hwords _).mp hp, hfound⟩
    · rintro ⟨others, found, hothers, hfound⟩
      -- the words are read as one list of ids
      have he := (hwords _).mpr hothers
      rw [hp] at he
      cases he
      exact ⟨_, found, hfound, rfl⟩

theorem exists_convertLines_iff {convert : String → Except Error String} {lines : List Document}
    {made : List String} :
    (∃ results, convertLines convert made lines = .ok results) ↔
      ∀ line ∈ lines, ∃ text, line.text? = some text ∧ ∃ result, convert text = .ok result := by
  induction lines generalizing made with
  | nil => exact ⟨fun _ => List.forall_mem_nil _, fun _ => ⟨_, rfl⟩⟩
  | cons line rest ih =>
    rw [convertLines, List.forall_mem_cons]
    cases line.text? with
    | none => simp
    | some text =>
      simp only [Option.some.injEq, exists_eq_left']
      cases convert text with
      | error e => simp
      | ok result => exact ih.trans ⟨fun h => ⟨⟨result, rfl⟩, h⟩, And.right⟩

theorem exists_hashFile_iff (hasher : Hasher) {bytes : ByteArray} :
    (∃ lines, hasher.hashFile bytes = .ok lines) ↔
      Document.IsText (Document.ofBytes bytes).lines := by
  simp [hashFile, exists_convertLines_iff, Document.IsText]

theorem exists_unhashFile_iff {bytes : ByteArray} :
    (∃ lines, hasher.unhashFile bytes = .ok lines) ↔
      hasher.vocabulary.NumbersAll (Document.ofBytes bytes).lines := by
  simp only [unhashFile, exists_convertLines_iff, exists_unhashLine_iff, Vocabulary.NumbersAll]

end Hasher

end TreeSeq
