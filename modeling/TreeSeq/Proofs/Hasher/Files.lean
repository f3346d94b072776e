import TreeSeq.Proofs.Batch.Conversion
import TreeSeq.Proofs.Hasher.Streams

/-!
# Hashing a file and restoring it

Every line of a text is hashed to a line of ids, whose tokens are the words of the line
that the vocabulary has (`unhashLine_hash`). Those hash to the same ids (`hash_kept`), so
a restored file stands for the same hash file (`restores_known`).
-/

namespace TreeSeq.Hasher

open Batch (Makes)

variable {hasher : Hasher} {vocabulary : Vocabulary} {tokens : List String}

/-- The words of a line that a vocabulary has, with single spaces between them. -/
def kept (vocabulary : Vocabulary) (line : String) : String :=
  " ".intercalate ((Text.words line).filter fun word => (vocabulary.idOf? word).isSome)

/-! ## Lines -/

theorem isLine_kept (vocabulary : Vocabulary) (line : String) :
    Text.IsLine (kept vocabulary line) :=
  Text.isLine_intercalate fun _ hp => Text.anyBlank_of_mem_words (List.mem_of_mem_filter hp)

/-- The words that are kept are all there is on the line. -/
theorem words_kept (vocabulary : Vocabulary) (line : String) :
    Text.words (kept vocabulary line) =
      (Text.words line).filter fun word => (vocabulary.idOf? word).isSome := by
  rw [kept, Text.words_intercalate fun _ hp =>
    Text.anyBlank_of_mem_words (List.mem_of_mem_filter hp), List.filter_eq_self]
  intro word hw
  rw [Text.ne_empty_of_mem_words (List.mem_of_mem_filter hw)]
  rfl

/-- Words without an id do not count. -/
theorem hash_kept (hasher : Hasher) (line : String) :
    hasher.hash (kept hasher.vocabulary line) = hasher.hash line := by
  rw [hash, words_kept, List.filterMap_filter, hash]
  refine List.filterMap_congr fun word _ => ?_
  cases hasher.vocabulary.idOf? word <;> rfl

/-- The tokens of the ids of some words are those words that have one. -/
theorem forall₂_idOf? (ht : vocabulary.Enumerates tokens) (words : List String) :
    List.Forall₂ (fun id token => tokens[id]? = some token) (words.filterMap vocabulary.idOf?)
      (words.filter fun word => (vocabulary.idOf? word).isSome) := by
  induction words with
  | nil => exact .nil
  | cons word rest ih =>
    cases hid : vocabulary.idOf? word with
    | none =>
      rw [List.filterMap_cons_none hid, List.filter_cons_of_neg (by simp [hid])]
      exact ih
    | some id =>
      rw [List.filterMap_cons_some hid, List.filter_cons_of_pos (by simp [hid])]
      exact .cons (ht.idOf?_eq_some_iff.mp hid) ih

theorem unhashLine_hash (hasher : Hasher)
    (hids : ∀ id ∈ hasher.vocabulary.ids, id < TokenStream.idLimit) (line : String) :
    hasher.unhashLine (hasher.hash line).text = .ok (kept hasher.vocabulary line) := by
  obtain ⟨tokens, ht⟩ := hasher.exists_enumerates
  have hbelow : ∀ id ∈ hasher.hash line, id < TokenStream.idLimit := by
    intro id hm
    obtain ⟨word, -, hw⟩ := List.mem_filterMap.mp hm
    exact hids id (List.mem_map.mpr ⟨_, Fields.mem_of_get? hw, rfl⟩)
  rw [unhashLine, TokenStream.parse_text hbelow]
  exact (unhash_eq_ok_iff ht).mpr ⟨_, forall₂_idOf? ht _, rfl⟩

/-! ## Files -/

/-- Lines of a text that all convert. -/
theorem convertLines_ofText {convert : String → Except Error String} {lines results : List String}
    (h : List.Forall₂ (fun line result => convert line = .ok result) lines results)
    (made : List String) :
    convertLines convert made (lines.map Document.ofText) = .ok (made.reverse ++ results) := by
  induction h generalizing made with
  | nil => simp [convertLines]
  | cons hl _ ih =>
    rw [List.map_cons, convertLines, Document.text?_ofText]
    simp only [hl, ih, List.reverse_cons, List.append_assoc, List.singleton_append]

/-- A text whose lines have the words that are kept of another text hashes to the same. -/
theorem hashText_of_lines {text restored : String}
    (h : Text.lines restored = (Text.lines text).map (kept hasher.vocabulary)) :
    hasher.hashText restored = hasher.hashText text := by
  rw [hashText, h, List.map_map, hashText]
  refine congrArg Text.unlines (List.map_congr_left fun line _ => ?_)
  rw [Function.comp_apply, hash_kept]

/-- Hashing a file makes the hash of its text. -/
theorem makes_hash (hasher : Hasher) (text : String) :
    Makes (.hash hasher) text (hasher.hashText text) (Text.lines text).length := by
  have hl : List.Forall₂
      (fun line result => (Except.ok (hasher.hash line).text : Except Error String) = .ok result)
      (Text.lines text) ((Text.lines text).map fun line => (hasher.hash line).text) :=
    List.forall₂_map_right_iff.mpr (List.forall₂_same.mpr fun _ _ => rfl)
  refine Batch.makes_of_convert ?_
  rw [Batch.Conversion.hash, hashFile, Document.ofBytes_toUTF8, Document.lines_ofText,
    convertLines_ofText hl]
  simp [hashText, bind, Except.bind, pure, Except.pure]

/-- Out of lines that all stand for something, unhashing makes what they stand for. -/
theorem makes_unhash {lines results : List String} (hl : ∀ line ∈ lines, Text.IsLine line)
    (h : List.Forall₂ (fun line result => hasher.unhashLine line = .ok result) lines results) :
    Makes (.unhash hasher) (Text.unlines lines) (Text.unlines results) lines.length := by
  refine Batch.makes_of_convert ?_
  rw [Batch.Conversion.unhash, unhashFile, Document.ofBytes_toUTF8, Document.lines_ofText,
    Text.lines_unlines hl, convertLines_ofText h, h.length_eq]
  simp [bind, Except.bind, pure, Except.pure]

/-- Out of a file with some text, hashing makes a file with the hash of the text, and out
of that unhashing makes a file with the same number of lines, each of which has the words
of its line of the text that the vocabulary has. Out of this file hashing makes the same
hash as out of the first one. The ids are numbers of 32 bits. -/
theorem restores_known (h : ofVocabulary vocabulary = .ok hasher)
    (hids : ∀ id ∈ vocabulary.ids, id < TokenStream.idLimit) (text : String) :
    ∃ restored,
      Makes (.hash hasher) text (hasher.hashText text) (Text.lines text).length ∧
      Makes (.unhash hasher) (hasher.hashText text) restored (Text.lines text).length ∧
      Text.lines restored = (Text.lines text).map (kept vocabulary) ∧
      Makes (.hash hasher) restored (hasher.hashText text) (Text.lines text).length := by
  obtain rfl := ofVocabulary_eq_ok_iff.mp h
  have hlines : Text.lines (Text.unlines ((Text.lines text).map (kept hasher.vocabulary))) =
      (Text.lines text).map (kept hasher.vocabulary) := by
    refine Text.lines_unlines fun line hl => ?_
    obtain ⟨found, -, rfl⟩ := List.mem_map.mp hl
    exact isLine_kept _ found
  refine ⟨_, makes_hash hasher text, ?_, hlines, ?_⟩
  · have hstreams : ∀ line ∈ (Text.lines text).map fun line => (hasher.hash line).text,
        Text.IsLine line := by
      intro line hl
      obtain ⟨found, -, rfl⟩ := List.mem_map.mp hl
      exact TokenStream.isLine_text _
    have hr : List.Forall₂ (fun line result => hasher.unhashLine line = .ok result)
        ((Text.lines text).map fun line => (hasher.hash line).text)
        ((Text.lines text).map (kept hasher.vocabulary)) := by
      rw [List.forall₂_map_left_iff, List.forall₂_map_right_iff, List.forall₂_same]
      exact fun line _ => unhashLine_hash hasher hids line
    have hm := makes_unhash hstreams hr
    rwa [List.length_map] at hm
  · have hm := makes_hash hasher (Text.unlines ((Text.lines text).map (kept hasher.vocabulary)))
    rwa [hashText_of_lines hlines, hlines, List.length_map] at hm

/-- Ids in another order than that of the tokens, a token that is no word, and an empty
one. -/
def mixed : Vocabulary :=
  .ofPairs [("if", 1), ("a b", 3), ("", 2), ("(", 0)]

/-- A tab, a word that is not known, a carriage return, a blank line, and no line feed at
the end. -/
def partlyKnown : String :=
  "if\t( a\r\n\nif"

theorem restores_known_mixed :
    ∃ hasher, ofVocabulary mixed = .ok hasher ∧
      (∀ id ∈ mixed.ids, id < TokenStream.idLimit) ∧
      ∃ restored,
        Makes (.unhash hasher) (hasher.hashText partlyKnown) restored
          (Text.lines partlyKnown).length ∧
        Makes (.hash hasher) restored (hasher.hashText partlyKnown)
          (Text.lines partlyKnown).length := by
  have hg : mixed.Gapless := Vocabulary.gapless_iff.mpr (by decide)
  obtain ⟨inverse, hi⟩ := Vocabulary.invert_ok_iff.mpr hg
  have h : ofVocabulary mixed = .ok ⟨mixed, inverse, hi⟩ := ofVocabulary_eq_ok_iff.mpr rfl
  have hids : ∀ id ∈ mixed.ids, id < TokenStream.idLimit := by
    have hsmall : ∀ id ∈ mixed.ids, id < 4 := by decide
    exact fun id hid => Nat.lt_trans (hsmall id hid) (by decide)
  obtain ⟨restored, -, hu, -, hh⟩ := restores_known h hids partlyKnown
  exact ⟨_, h, hids, restored, hu, hh⟩

end TreeSeq.Hasher
