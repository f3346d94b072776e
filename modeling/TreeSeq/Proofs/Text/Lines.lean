import TreeSeq.Proofs.Text.Document
import TreeSeq.Proofs.Text.Words
import TreeSeq.Text.Lines
import Mathlib.Data.List.Basic

/-!
# The lines of a text

Texts written as lines stand between line feeds, with nothing behind the last
(`unlines_eq`), and are read back if no line feed is in them and no carriage
return at their end.

* `lines_unlines_of_unbroken`: texts without line feeds are read back, up to a carriage return
  at the end of each;
* `lines_unlines`: lines are read back as they were written;
* `joinLines_eq_unlines`: two ways to write lines differ for an empty line alone;
* `Document.lines_ofText`: the lines of a file that holds a text are those of the text.
-/

namespace TreeSeq.Text

/-- A text that can stand as a line: no line feed in it and no carriage return at its
end. -/
def IsLine (text : String) : Prop :=
  '\n' ∉ text.toList ∧ text.toList.getLast? ≠ some '\r'

theorem isLine_of_anyBlank {text : String} (h : anyBlank text = false) : IsLine text := by
  rw [anyBlank_eq_false_iff] at h
  refine ⟨fun hm => absurd (h _ hm) (by decide), fun hl => ?_⟩
  exact absurd (h _ (List.mem_of_getLast? hl)) (by decide)

theorem mem_intercalate_space {pieces : List String} {c : Char}
    (h : c ∈ (" ".intercalate pieces).toList) : c = ' ' ∨ ∃ piece ∈ pieces, c ∈ piece.toList := by
  induction pieces with
  | nil => simp at h
  | cons piece rest ih =>
    cases rest with
    | nil => exact .inr ⟨piece, List.mem_cons_self, by simpa using h⟩
    | cons next rest =>
      rw [String.intercalate_cons_cons, String.toList_append, String.toList_append] at h
      rcases List.mem_append.mp h with h | h
      · rcases List.mem_append.mp h with h | h
        · exact .inr ⟨piece, List.mem_cons_self, h⟩
        · exact .inl (by simpa using h)
      · exact (ih h).imp_right fun ⟨found, hf, hc⟩ => ⟨found, List.mem_cons_of_mem _ hf, hc⟩

/-- Pieces without blanks, with spaces between them, make up a line. -/
theorem isLine_intercalate {pieces : List String}
    (h : ∀ piece ∈ pieces, anyBlank piece = false) : IsLine (" ".intercalate pieces) := by
  have hc : ∀ c ∈ (" ".intercalate pieces).toList, c = ' ' ∨ isBlank c = false := by
    intro c hc
    rcases mem_intercalate_space hc with rfl | ⟨piece, hp, hm⟩
    · exact .inl rfl
    · exact .inr (anyBlank_eq_false_iff.mp (h piece hp) c hm)
  refine ⟨fun hm => absurd (hc _ hm) (by decide), fun hl => ?_⟩
  exact absurd (hc _ (List.mem_of_getLast? hl)) (by decide)

/-! ## Writing -/

theorem unlines_append (texts others : List String) :
    unlines (texts ++ others) = unlines texts ++ unlines others := by
  have h : ∀ (texts : List String) (start : String),
      texts.foldl (fun out text => (out ++ text).push '\n') start = start ++ unlines texts := by
    intro texts
    induction texts with
    | nil => simp [unlines]
    | cons text rest ih =>
      intro start
      rw [unlines, List.foldl_cons, List.foldl_cons, ih, ih (("" ++ text).push '\n')]
      simp [← String.toList_inj]
  rw [unlines, List.foldl_append, h others]
  rfl

theorem unlines_cons (text : String) (rest : List String) :
    unlines (text :: rest) = text.push '\n' ++ unlines rest := by
  rw [← List.singleton_append, unlines_append, unlines, List.foldl_cons, List.foldl_nil,
    String.empty_append]

/-- Lines stand between line feeds, with nothing behind the last. -/
theorem unlines_eq (texts : List String) : unlines texts = "\n".intercalate (texts ++ [""]) := by
  induction texts with
  | nil => rfl
  | cons text rest ih =>
    have hpush : text.push '\n' = text ++ "\n" := by simp [← String.toList_inj]
    rw [unlines_cons, hpush, ih, List.cons_append,
      String.intercalate_cons_of_ne_nil (List.append_ne_nil_of_right_ne_nil _ (List.cons_ne_nil _ _))]

/-- The pieces between the line feeds. -/
theorem splitOn_unlines {texts : List String} (h : ∀ text ∈ texts, '\n' ∉ text.toList) :
    (unlines texts).toList.splitOn '\n' = texts.map String.toList ++ [[]] := by
  have hl : (unlines texts).toList = ['\n'].intercalate (texts.map String.toList ++ [[]]) := by
    rw [unlines_eq, String.toList_intercalate, List.map_append]
    rfl
  rw [hl, List.splitOn_intercalate '\n' _ (by simp)]
  intro line hl
  rcases List.mem_append.mp hl with hl | hl
  · obtain ⟨text, ht, rfl⟩ := List.mem_map.mp hl
    exact h text ht
  · obtain rfl := List.mem_singleton.mp hl
    exact List.not_mem_nil

/-- The two ways to write lines agree on lines that are not empty. -/
theorem joinLines_eq_unlines {texts : List String} (h : ∀ text ∈ texts, text ≠ "") :
    joinLines texts = unlines texts := by
  cases texts with
  | nil => rfl
  | cons text rest =>
    have hbody : ("\n".intercalate (text :: rest)).isEmpty = false := by
      rw [Bool.eq_false_iff, ne_eq, String.isEmpty_iff]
      exact intercalate_ne_empty (h text List.mem_cons_self) rest
    rw [joinLines, if_neg (by simp [hbody]), unlines_eq,
      String.intercalate_append_of_ne_nil (List.cons_ne_nil _ _) (List.cons_ne_nil _ _)]
    simp [← String.toList_inj]

/-! ## Reading -/

theorem dropLastIf_of_getLast? {α : Type} [BEq α] [LawfulBEq α] {last : α} {line : List α}
    (h : line.getLast? ≠ some last) : dropLastIf last line = line :=
  if_neg (by simpa using h)

/-- Texts without line feeds are read back, each without a carriage return at its end. -/
theorem lines_unlines_of_unbroken {texts : List String}
    (h : ∀ text ∈ texts, '\n' ∉ text.toList) :
    lines (unlines texts) = texts.map fun text => String.ofList (dropLastIf '\r' text.toList) := by
  rw [lines, linesOf, splitOn_unlines h]
  simp only [List.dropLast_concat, List.getLastD_concat, List.isEmpty_nil, if_true, List.append_nil,
    List.map_map]
  rfl

/-- Lines are read back. -/
theorem lines_unlines {texts : List String} (h : ∀ text ∈ texts, IsLine text) :
    lines (unlines texts) = texts := by
  rw [lines_unlines_of_unbroken fun text ht => (h text ht).1]
  conv_rhs => rw [← List.map_id texts]
  refine List.map_congr_left fun text ht => ?_
  rw [dropLastIf_of_getLast? (h text ht).2, String.ofList_toList, id_eq]

/-- A blank line is read as a blank line. -/
theorem allBlank_dropLastIf {text : String} (h : allBlank text = true) (last : Char) :
    allBlank (String.ofList (dropLastIf last text.toList)) = true := by
  rw [allBlank, List.all_eq_true] at h
  rw [allBlank, String.toList_ofList, List.all_eq_true]
  refine fun c hc => h c ?_
  rw [dropLastIf] at hc
  split at hc
  · exact List.dropLast_subset _ hc
  · exact hc

/-! ## Words -/

/-- A carriage return at the end of a line is in none of its words. -/
theorem words_dropLastIf (line : List Char) :
    words (String.ofList (dropLastIf '\r' line)) = words (String.ofList line) := by
  rw [dropLastIf]
  split
  · rename_i h
    obtain ⟨front, rfl⟩ := List.getLast?_eq_some_iff.mp (eq_of_beq h)
    rw [List.dropLast_concat, words_append_cons rfl]
    exact (List.append_nil _).symm
  · rfl

/-- A line feed parts words. -/
theorem words_intercalate_feed (pieces : List (List Char)) :
    words (String.ofList (['\n'].intercalate pieces)) =
      pieces.flatMap fun piece => words (String.ofList piece) := by
  induction pieces with
  | nil => rfl
  | cons piece rest ih =>
    cases rest with
    | nil => simp
    | cons next rest =>
      rw [List.intercalate_cons_cons, List.append_assoc, List.singleton_append,
        words_append_cons rfl, ih]
      rfl

/-- The words of a text are those of its lines. -/
theorem flatMap_words_lines (text : String) : (lines text).flatMap words = words text := by
  obtain ⟨front, last, hp⟩ :=
    (List.eq_nil_or_concat' _).resolve_left (List.splitOn_ne_nil '\n' text.toList)
  have hlast : (if last.isEmpty then [] else [last]).flatMap
      (fun piece => words (String.ofList piece)) = words (String.ofList last) := by
    split
    · rename_i h
      rw [List.isEmpty_iff.mp h]
      rfl
    · exact List.flatMap_singleton _ _
  have ht : words text = words (String.ofList (['\n'].intercalate (front ++ [last]))) := by
    rw [← hp, List.intercalate_splitOn, String.ofList_toList]
  rw [ht, words_intercalate_feed, lines, linesOf, hp]
  simp only [List.dropLast_concat, List.getLastD_concat, List.flatMap_map, List.flatMap_append,
    hlast, words_dropLastIf, List.flatMap_singleton]

end TreeSeq.Text

namespace TreeSeq

open Text (dropLastIf linesOf)

/-! ## Lines of documents -/

theorem Text.splitOn_map {α β : Type} [BEq α] [BEq β] {f : α → β} {a : α}
    (h : ∀ b, (f b == f a) = (b == a)) (text : List α) :
    (text.map f).splitOn (f a) = (text.splitOn a).map (List.map f) := by
  simp only [List.splitOn_eq_splitOnP]
  induction text with
  | nil => rfl
  | cons b rest ih =>
    obtain ⟨first, others, ho⟩ :=
      List.exists_cons_of_ne_nil (List.splitOnP_ne_nil (· == a) rest)
    rw [List.map_cons, List.splitOnP_cons_eq_if_modifyHead, List.splitOnP_cons_eq_if_modifyHead, ih,
      h, ho]
    split <;> simp

theorem Text.dropLastIf_map {α β : Type} [BEq α] [BEq β] [LawfulBEq α] [LawfulBEq β] {f : α → β}
    (hf : Function.Injective f) (last : α) (line : List α) :
    dropLastIf (f last) (line.map f) = (dropLastIf last line).map f := by
  have h : (line.getLast?.map f = some (f last)) ↔ line.getLast? = some last := by
    rw [Option.map_eq_some_iff]
    constructor
    · rintro ⟨c, hc, he⟩
      rw [hc, hf he]
    · exact fun hl => ⟨last, hl, rfl⟩
  rw [dropLastIf, dropLastIf, List.getLast?_map]
  by_cases hl : line.getLast? = some last
  · rw [if_pos (by simpa using h.mpr hl), if_pos (by simpa using hl), List.map_dropLast]
  · rw [if_neg (by simpa using fun he => hl (h.mp he)), if_neg (by simpa using hl)]

/-- Lines do not depend on how the characters are written. -/
theorem Text.linesOf_map {α β : Type} [BEq α] [BEq β] [LawfulBEq α] [LawfulBEq β] {f : α → β}
    (hf : Function.Injective f) (feed carriage : α) (text : List α) :
    linesOf (f feed) (f carriage) (text.map f) = (linesOf feed carriage text).map (List.map f) := by
  have hs := splitOn_map (f := f) (a := feed) (fun b => by
    rw [Bool.eq_iff_iff, beq_iff_eq, beq_iff_eq, hf.eq_iff]) text
  have hl : ((text.splitOn feed).map (List.map f)).getLastD [] =
      ((text.splitOn feed).getLastD []).map f := by
    rw [List.getLastD_eq_getLast?, List.getLastD_eq_getLast?, List.getLast?_map]
    cases (text.splitOn feed).getLast? <;> rfl
  simp only [linesOf, hs, hl, List.isEmpty_map, List.map_append, List.map_map, ← List.map_dropLast]
  congr 1
  · exact List.map_congr_left fun line _ => dropLastIf_map hf carriage line
  · split <;> rfl

namespace Document

/-- A text in a file is read back. -/
theorem text?_ofText (text : String) : (ofText text).text? = some text := by
  have h : ∀ characters : List Char,
      (characters.map Symbol.char).mapM Symbol.char? = some characters := by
    intro characters
    induction characters with
    | nil => rfl
    | cons c rest ih => simp [ih, Symbol.char?]
  rw [text?, ofText, h, Option.map_some, String.ofList_toList]

/-- The lines of a file that holds a text. -/
theorem lines_ofText (text : String) : (ofText text).lines = (Text.lines text).map ofText := by
  rw [lines, ofText, Text.linesOf_map (fun _ _ h => Symbol.char.inj h), Text.lines, List.map_map]
  refine List.map_congr_left fun line _ => ?_
  rw [Function.comp_apply, ofText, String.toList_ofList]

end Document

end TreeSeq
