import TreeSeq.Glob
import Mathlib.Data.List.Infix
import Mathlib.Data.String.Basic

/-!
# Patterns for the ends of names

A pattern that asks for an asterisk and some characters, at any depth, matches the texts
that end in these characters (`matchesText_ending_iff`). Characters that are lower case stay
as they are when a text is lowered, so such a pattern selects all files whose names end in
them (`selects_of_ending`).
-/

namespace TreeSeq

namespace Text

variable {before text out ending : List Char}

/-- A character that lowering a text leaves as it is. -/
structure IsLower (c : Char) : Prop where
  not_sigma : c ≠ 'Σ'
  not_dotted : c ≠ 'İ'
  lowerChar : Case.lowerChar c = c

/-- Lowering leaves characters with 7 bits as they are, unless they are capitals. -/
theorem isLower_of_ascii {c : Char} (h : c.toNat < 0x80) (hu : c.isUpper = false) :
    IsLower c := by
  constructor
  case not_sigma =>
    rintro rfl
    exact absurd h (by decide)
  case not_dotted =>
    rintro rfl
    exact absurd h (by decide)
  case lowerChar =>
    rw [Case.lowerChar, if_pos h]
    exact dif_neg (of_decide_eq_false hu)

theorem lowerFrom_of_isLower (h : ∀ c ∈ text, IsLower c) :
    lowerFrom before text out = out.reverse ++ text := by
  induction text generalizing before out with
  | nil => rw [lowerFrom, List.append_nil]
  | cons c rest ih =>
    obtain ⟨hc, hrest⟩ := List.forall_mem_cons.mp h
    have hs : (c == 'Σ') = false := by simpa using hc.not_sigma
    have hd : (c == 'İ') = false := by simpa using hc.not_dotted
    rw [lowerFrom, hs, hd, hc.lowerChar, ih hrest]
    simp

/-- What is lower case at the end of a text stays there. -/
theorem suffix_lowerFrom (h : ∀ c ∈ ending, IsLower c) :
    ending <:+ lowerFrom before (text ++ ending) out := by
  induction text generalizing before out with
  | nil =>
    rw [List.nil_append, lowerFrom_of_isLower h]
    exact List.suffix_append _ _
  | cons c rest ih =>
    rw [List.cons_append, lowerFrom]
    exact ih

end Text

namespace Glob

variable {test : List Char → Bool} {text ending : List Char}

/-! ## Matching -/

theorem afterSome_eq_true_iff :
    afterSome test text = true ↔ ∃ back, back <:+ text ∧ test back = true := by
  induction text with
  | nil => simp [afterSome]
  | cons c rest ih =>
    rw [afterSome, Bool.or_eq_true, ih]
    constructor
    · rintro (h | ⟨back, hs, h⟩)
      · exact ⟨c :: rest, List.suffix_refl _, h⟩
      · exact ⟨back, hs.trans (List.suffix_cons _ _), h⟩
    · rintro ⟨back, hs, h⟩
      rcases List.suffix_cons_iff.mp hs with rfl | hs
      · exact .inl h
      · exact .inr ⟨back, hs, h⟩

theorem exists_suffix_of_afterSlash (h : afterSlash test text = true) :
    ∃ back, back <:+ text ∧ test back = true := by
  induction text with
  | nil => exact ⟨[], List.suffix_refl _, h⟩
  | cons c rest ih =>
    rw [afterSlash, Bool.or_eq_true, Bool.and_eq_true] at h
    rcases h with ⟨-, h⟩ | h
    · exact ⟨rest, List.suffix_cons _ _, h⟩
    · obtain ⟨back, hs, h⟩ := ih h
      exact ⟨back, hs.trans (List.suffix_cons _ _), h⟩

/-- Characters match themselves. -/
theorem matchesText_chars_iff :
    Pattern.matchesText (ending.map .char) text = true ↔ text = ending := by
  induction ending generalizing text with
  | nil => simp [Pattern.matchesText]
  | cons c rest ih =>
    cases text with
    | nil => simp [Pattern.matchesText]
    | cons found text => simp [Pattern.matchesText, ih]

/-- An asterisk and characters, at any depth, match the texts that end in the characters. -/
theorem matchesText_ending_iff :
    Pattern.matchesText (.directories :: .many :: ending.map .char) text = true ↔
      ending <:+ text := by
  have hmany : ∀ back, Pattern.matchesText (.many :: ending.map .char) back = true ↔
      ending <:+ back := by
    intro back
    rw [Pattern.matchesText, afterSome_eq_true_iff]
    simp only [matchesText_chars_iff, exists_eq_right]
  rw [Pattern.matchesText, Bool.or_eq_true, hmany]
  constructor
  · rintro (h | h)
    · exact h
    · obtain ⟨back, hs, h⟩ := exists_suffix_of_afterSlash h
      exact ((hmany back).mp h).trans hs
  · exact .inl

/-! ## The end of the last name -/

/-- Patterns are matched against a text that ends as the last name does. -/
theorem suffix_subject {above : List String} {front suffix : String}
    (h : ∀ c ∈ suffix.toList, Text.IsLower c ∧ c ≠ '\\') :
    suffix.toList <:+ subject (above ++ [front ++ suffix]) := by
  obtain ⟨start, hs⟩ : ∃ start, ("/".intercalate (above ++ [front ++ suffix])).toList =
      start ++ suffix.toList := by
    rcases eq_or_ne above [] with rfl | hne
    · exact ⟨front.toList, by simp [String.intercalate_singleton]⟩
    · rw [String.intercalate_append_of_ne_nil hne (List.cons_ne_nil _ _),
        String.intercalate_singleton, ← String.append_assoc, String.toList_append]
      exact ⟨_, rfl⟩
  have hkept : suffix.toList.map (fun c => if c == '\\' then '/' else c) = suffix.toList := by
    conv_rhs => rw [← List.map_id suffix.toList]
    refine List.map_congr_left fun c hm => ?_
    have hc : (c == '\\') = false := by simpa using (h c hm).2
    rw [hc]
    rfl
  rw [subject, Text.lowercase, String.toList_ofList, String.toList_map, hs, List.map_append, hkept]
  exact Text.suffix_lowerFrom fun c hm => (h c hm).1

/-- Such patterns select the files whose names end so. -/
theorem selects_of_ending {above : List String} {front suffix : String}
    (h : ∀ c ∈ suffix.toList, Text.IsLower c ∧ c ≠ '\\') :
    selects [.directories :: .many :: suffix.toList.map .char] (above ++ [front ++ suffix]) =
      true := by
  rw [selects, List.any_cons, matchesText_ending_iff.mpr (suffix_subject h)]
  rfl

end Glob

end TreeSeq
