import TreeSeq.Text.Blank
import Mathlib.Data.List.Basic

/-!
# The words of a text

A blank parts the words in front of it from those behind it (`words_append_cons`).
Words are neither empty nor cut by a blank, and pieces without blanks that stand with
single spaces between them are read back, but for the empty ones.

* `ne_empty_of_mem_words`, `anyBlank_of_mem_words`: what a word is;
* `words_intercalate`: the words of pieces with spaces between them.
-/

namespace TreeSeq.Text

theorem anyBlank_eq_false_iff {text : String} :
    anyBlank text = false ↔ ∀ c ∈ text.toList, isBlank c = false := by
  rw [anyBlank, List.any_eq_false]
  simp only [Bool.not_eq_true]

theorem intercalate_ne_empty {separator text : String} (h : text ≠ "") (rest : List String) :
    separator.intercalate (text :: rest) ≠ "" := by
  cases rest with
  | nil => rwa [String.intercalate_singleton]
  | cons next rest =>
    rw [String.intercalate_cons_cons]
    exact fun he => h (String.append_eq_empty_iff.mp (String.append_eq_empty_iff.mp he).1).1

/-- A blank parts the words on its two sides. -/
theorem words_append_cons {c : Char} (hc : isBlank c = true) (front back : List Char) :
    words (String.ofList (front ++ c :: back)) =
      words (String.ofList front) ++ words (String.ofList back) := by
  simp only [words, String.toList_ofList]
  rw [List.splitOnP_append_cons front back hc, List.filter_append, List.map_append]

/-- A text without blanks is a word, unless it is empty. -/
theorem words_of_anyBlank {text : String} (h : anyBlank text = false) :
    words text = [text].filter (!·.isEmpty) := by
  rw [words, List.splitOnP_eq_singleton (anyBlank_eq_false_iff.mp h)]
  by_cases he : text = ""
  · subst he
    rfl
  · have hl : text.toList.isEmpty = false := by simpa [String.toList_eq_nil_iff] using he
    simp [hl, he]

theorem words_append_space (front back : String) :
    words (front ++ " " ++ back) = words front ++ words back := by
  have ht : front ++ " " ++ back = String.ofList (front.toList ++ ' ' :: back.toList) := by
    simp [← String.toList_inj]
  rw [ht, words_append_cons rfl, String.ofList_toList, String.ofList_toList]

/-- Pieces without blanks, with single spaces between them, are read back as words, but
for the empty ones. -/
theorem words_intercalate {pieces : List String} (h : ∀ piece ∈ pieces, anyBlank piece = false) :
    words (" ".intercalate pieces) = pieces.filter (!·.isEmpty) := by
  induction pieces with
  | nil => rfl
  | cons piece rest ih =>
    obtain ⟨hp, hr⟩ := List.forall_mem_cons.mp h
    cases rest with
    | nil => rw [String.intercalate_singleton, words_of_anyBlank hp]
    | cons next rest =>
      rw [String.intercalate_cons_cons, words_append_space, words_of_anyBlank hp, ih hr,
        ← List.filter_append, List.singleton_append]

/-- The pieces between separators hold none. -/
theorem not_of_mem_splitOnP {α : Type} {p : α → Bool} {whole piece : List α}
    (h : piece ∈ whole.splitOnP p) : ∀ a ∈ piece, p a = false := by
  induction whole generalizing piece with
  | nil =>
    obtain rfl : piece = [] := by simpa using h
    simp
  | cons a rest ih =>
    rw [List.splitOnP_cons_eq_if_modifyHead] at h
    obtain ⟨first, others, ho⟩ := List.exists_cons_of_ne_nil (List.splitOnP_ne_nil p rest)
    split at h
    · rcases List.mem_cons.mp h with rfl | h
      · simp
      · exact ih h
    · rename_i ha
      rw [ho, List.modifyHead_cons] at h
      rcases List.mem_cons.mp h with rfl | h
      · exact List.forall_mem_cons.mpr ⟨by simpa using ha, ih (ho ▸ List.mem_cons_self)⟩
      · exact ih (ho ▸ List.mem_cons_of_mem _ h)

theorem ne_empty_of_mem_words {text word : String} (h : word ∈ words text) :
    word.isEmpty = false := by
  obtain ⟨piece, hp, rfl⟩ := List.mem_map.mp h
  have := (List.mem_filter.mp hp).2
  rw [Bool.eq_false_iff, ne_eq, String.isEmpty_iff, ← String.toList_eq_nil_iff,
    String.toList_ofList]
  simpa using this

theorem anyBlank_of_mem_words {text word : String} (h : word ∈ words text) :
    anyBlank word = false := by
  obtain ⟨piece, hp, rfl⟩ := List.mem_map.mp h
  rw [anyBlank_eq_false_iff, String.toList_ofList]
  exact not_of_mem_splitOnP (List.mem_filter.mp hp).1

end TreeSeq.Text
