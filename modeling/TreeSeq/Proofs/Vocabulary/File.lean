import TreeSeq.Proofs.Text.Document
import TreeSeq.Proofs.Text.Lines
import TreeSeq.Proofs.Vocabulary.Enumeration
import TreeSeq.Proofs.Vocabulary.Growth

/-!
# Vocabulary files are read back

A file holds the tokens of a vocabulary as its lines, in the order of their ids. Reading
takes any different lines without blanks and numbers them (`readLines_eq_ok_iff`), so a
vocabulary is read back just if no token holds a blank (`reloads_iff`): tokens that are
words of texts or lines of a vocabulary file never do.
-/

namespace TreeSeq.Vocabulary

variable {vocabulary grown : Vocabulary}

/-! ## Reading lines -/

/-- Lines are taken just if they hold no blank and are new, and each gets the next id. -/
theorem readLines_eq_ok_iff {line : Nat} {lines : List String} :
    readLines vocabulary line lines = .ok grown ↔
      (∀ token ∈ lines, Text.anyBlank token = false) ∧
        (Fields.names vocabulary.entries ++ lines).Nodup ∧
        grown.entries = vocabulary.entries ++ lines.zipIdx vocabulary.nextId := by
  induction lines generalizing vocabulary line with
  | nil =>
    rw [readLines, List.append_nil, List.zipIdx_nil, List.append_nil]
    constructor
    · intro h
      cases h
      exact ⟨List.forall_mem_nil _, grown.distinct, rfl⟩
    · rintro ⟨-, -, he⟩
      rw [eq_of_entries he]
  | cons token rest ih =>
    rw [readLines, List.forall_mem_cons, List.append_cons, List.zipIdx_cons,
      List.append_cons vocabulary.entries]
    cases hb : Text.anyBlank token with
    | true => simp
    | false =>
      rw [if_neg Bool.false_ne_true]
      cases hi : vocabulary.idOf? token with
      | some id =>
        have hm : token ∈ Fields.names vocabulary.entries := Fields.mem_names_iff.mpr ⟨id, hi⟩
        simp only [reduceCtorEq, false_iff, not_and]
        intro _ hn
        exact absurd rfl
          ((List.nodup_append.mp (List.nodup_append.mp hn).1).2.2 token hm token (by simp))
      | none =>
        have he := insert_of_idOf? hi
        rw [ih, nextId_of_entries he, he, Fields.names_append]
        simp

/-- Lines that were written are the lines of the file. -/
theorem fileLines_unlines {tokens : List String} (h : ∀ token ∈ tokens, Text.IsLine token) :
    fileLines (Text.unlines tokens) = tokens := by
  cases tokens with
  | nil => rfl
  | cons token rest =>
    have hl : (Text.unlines (token :: rest)).toList =
        ("\n".intercalate (token :: rest)).toList ++ ['\n'] := by
      rw [Text.unlines_eq, String.intercalate_append_of_ne_nil (List.cons_ne_nil _ _)
        (List.cons_ne_nil _ _)]
      simp
    have hn : (Text.unlines (token :: rest)).isEmpty = false := by
      rw [Bool.eq_false_iff, ne_eq, String.isEmpty_iff, ← String.toList_eq_nil_iff, hl]
      simp
    have hdrop : Text.dropLastIf '\n' (Text.unlines (token :: rest)).toList =
        ['\n'].intercalate ((token :: rest).map String.toList) := by
      rw [hl, Text.dropLastIf, if_pos (by simp), List.dropLast_concat, String.toList_intercalate]
      rfl
    rw [fileLines, if_neg (by simp [hn])]
    simp only [hdrop]
    rw [List.splitOn_intercalate '\n' _ (by simp), List.map_map]
    · conv_rhs => rw [← List.map_id (token :: rest)]
      refine List.map_congr_left fun text ht => ?_
      rw [Function.comp_apply, id_eq, Text.dropLastIf_of_getLast? (h text ht).2,
        String.ofList_toList]
    · intro line hm
      obtain ⟨text, ht, rfl⟩ := List.mem_map.mp hm
      exact (h text ht).1

/-- Different tokens can be numbered. -/
theorem distinct_zipIdx {tokens : List String} (h : tokens.Nodup) :
    Fields.Distinct tokens.zipIdx := by
  rwa [Fields.Distinct, Fields.names, List.zipIdx_map_fst]

/-- The vocabulary of a file lists its lines, which hold no blanks. -/
theorem parse_eq_ok_iff {text : String} :
    parse text = .ok vocabulary ↔
      (∀ token ∈ fileLines text, Text.anyBlank token = false) ∧ (fileLines text).Nodup ∧
        vocabulary.entries = (fileLines text).zipIdx :=
  readLines_eq_ok_iff

/-! ## Reading back -/

/-- No token holds a blank. -/
def BlankFree (vocabulary : Vocabulary) : Prop :=
  ∀ token ∈ Fields.names vocabulary.entries, Text.anyBlank token = false

/-- The vocabulary has a file, and what is loaded from it has the same ids for the same
tokens, and the same next id. -/
def Reloads (vocabulary : Vocabulary) : Prop :=
  ∃ text loaded, vocabulary.save = .ok text ∧ load text.toUTF8 = .ok loaded ∧
    loaded.same vocabulary ∧ loaded.nextId = vocabulary.nextId

theorem load_toUTF8 (text : String) : load text.toUTF8 = parse text := by
  rw [load, Document.fromUTF8?_toUTF8]

theorem Enumerates.same {tokens : List String} (h : vocabulary.Enumerates tokens)
    (h' : grown.Enumerates tokens) : vocabulary.same grown := by
  refine same_iff.mpr fun token => Option.ext fun id => ?_
  exact h.idOf?_eq_some_iff.trans h'.idOf?_eq_some_iff.symm

theorem same_names (h : vocabulary.same grown) :
    ∀ token ∈ Fields.names grown.entries, token ∈ Fields.names vocabulary.entries := by
  intro token ht
  obtain ⟨id, hid⟩ := Fields.mem_names_iff.mp ht
  exact Fields.mem_names_iff.mpr ⟨id, (same_iff.mp h token).trans hid⟩

theorem reloads_of_blankFree (hg : vocabulary.Gapless) (hb : vocabulary.BlankFree) :
    vocabulary.Reloads := by
  obtain ⟨inverse, hi⟩ := invert_ok_iff.mpr hg
  obtain ⟨tokens, ht, -⟩ := exists_enumerates hi
  have hblank : ∀ token ∈ tokens, Text.anyBlank token = false := fun token hm =>
    hb token (ht.names.mem_iff.mpr hm)
  have hlines := fileLines_unlines fun token hm => Text.isLine_of_anyBlank (hblank token hm)
  have hdistinct := distinct_zipIdx ht.nodup
  have hparse : parse (Text.unlines tokens) = .ok (.ofEntries tokens.zipIdx hdistinct) := by
    rw [parse_eq_ok_iff, hlines]
    exact ⟨hblank, ht.nodup, rfl⟩
  have hloaded : (ofEntries tokens.zipIdx hdistinct).Enumerates tokens := List.Perm.refl _
  refine ⟨_, _, ht.save, (load_toUTF8 _).trans hparse, hloaded.same ht, ?_⟩
  rw [nextId_of_gapless hloaded.gapless, nextId_of_gapless hg, hloaded.size, ht.size]

theorem blankFree_of_parse {text : String} (h : parse text = .ok vocabulary) :
    vocabulary.BlankFree := by
  obtain ⟨hb, -, he⟩ := parse_eq_ok_iff.mp h
  rw [BlankFree, he, Fields.names, List.zipIdx_map_fst]
  exact hb

/-- A vocabulary that was loaded has the lines of its file in their order. -/
theorem gapless_of_load {bytes : ByteArray} (h : load bytes = .ok vocabulary) :
    vocabulary.Gapless := by
  rw [load] at h
  split at h
  · obtain ⟨-, -, he⟩ := parse_eq_ok_iff.mp h
    exact Enumerates.gapless (List.Perm.of_eq he)
  · cases h

theorem exists_save_of_gapless (h : vocabulary.Gapless) : ∃ text, vocabulary.save = .ok text := by
  obtain ⟨inverse, hi⟩ := invert_ok_iff.mpr h
  exact ⟨_, by rw [save, hi]⟩

theorem Reloads.blankFree (h : vocabulary.Reloads) : vocabulary.BlankFree := by
  obtain ⟨text, loaded, -, hl, hs, -⟩ := h
  rw [load_toUTF8] at hl
  exact fun token ht => blankFree_of_parse hl token (same_names hs token ht)

theorem Reloads.gapless (h : vocabulary.Reloads) : vocabulary.Gapless := by
  obtain ⟨text, -, hs, -⟩ := h
  rw [save] at hs
  split at hs
  · rename_i inverse hi
    exact invert_ok_iff.mp ⟨inverse, hi⟩
  · cases hs

/-! ## Tokens that are words -/

theorem BlankFree.insert (h : vocabulary.BlankFree) {token : String}
    (ht : Text.anyBlank token = false) : (vocabulary.insert token).BlankFree := by
  cases hi : vocabulary.idOf? token with
  | some id =>
    rw [insert_eq_self hi]
    exact h
  | none =>
    rw [BlankFree, insert_of_idOf? hi, Fields.names_append, List.forall_mem_append]
    exact ⟨h, List.forall_mem_singleton.mpr ht⟩

theorem BlankFree.addLine (h : vocabulary.BlankFree) (line : String) :
    (vocabulary.addLine line).BlankFree := by
  have hw : ∀ token ∈ Text.words line, Text.anyBlank token = false := fun token =>
    Text.anyBlank_of_mem_words
  rw [Vocabulary.addLine, insertAll]
  generalize Text.words line = tokens at hw
  induction tokens generalizing vocabulary with
  | nil => exact h
  | cons token rest ih =>
    obtain ⟨ht, hr⟩ := List.forall_mem_cons.mp hw
    exact ih (h.insert ht) hr

theorem blankFree_empty : empty.BlankFree :=
  List.forall_mem_nil _

theorem BlankFree.ofLines (lines : List String) : (ofLines lines).BlankFree := by
  suffices ∀ vocabulary : Vocabulary, vocabulary.BlankFree →
      (lines.foldl Vocabulary.addLine vocabulary).BlankFree from this .empty blankFree_empty
  induction lines with
  | nil => exact fun _ h => h
  | cons line rest ih => exact fun _ h => ih _ (h.addLine line)

theorem BlankFree.addLines {lines : List Document} (h : vocabulary.BlankFree)
    (ha : vocabulary.addLines lines = .ok grown) : grown.BlankFree := by
  induction lines generalizing vocabulary with
  | nil =>
    cases ha
    exact h
  | cons line rest ih =>
    rw [Vocabulary.addLines] at ha
    split at ha
    · exact ih (h.addLine _) ha
    · cases ha

theorem BlankFree.addFiles {paths : List Path} {disk disk' : Disk} (h : vocabulary.BlankFree)
    (ha : Disk.Yields (Batch.addFiles vocabulary paths) disk grown disk') : grown.BlankFree := by
  induction paths generalizing vocabulary disk with
  | nil =>
    cases ha
    exact h
  | cons path rest ih =>
    rw [Batch.addFiles, List.foldlM_cons, Disk.yields_bind_iff] at ha
    obtain ⟨next, between, hnext, hrest⟩ := ha
    obtain ⟨bytes, loaded, -, hadd⟩ := Disk.yields_bind_iff.mp hnext
    exact ih (h.addLines (Disk.yields_ofExcept_iff.mp hadd).1) hrest

theorem extends_ofLines (lines : List String) : (ofLines lines).Extends .empty := by
  suffices ∀ vocabulary : Vocabulary,
      (lines.foldl addLine vocabulary).Extends vocabulary from this .empty
  induction lines with
  | nil => exact .refl
  | cons line rest ih => exact fun vocabulary => (extends_addLine vocabulary line).trans (ih _)

theorem gapless_empty : empty.Gapless :=
  List.Perm.refl _

/-- A vocabulary with the ids `0, 1, …`, wherever they stand, is read back from its file
just if no token holds a blank. The words of lines and of text files make up such a
vocabulary, also on top of one that is read back, and so do the lines of a vocabulary
file. -/
theorem reloads_iff :
    (∀ vocabulary : Vocabulary, vocabulary.Gapless →
      (vocabulary.Reloads ↔
        ∀ token id, vocabulary.idOf? token = some id → Text.anyBlank token = false)) ∧
    (∀ lines, (ofLines lines).Reloads) ∧
    (∀ existing grown paths disk disk', existing = empty ∨ existing.Reloads →
      Disk.Yields (Batch.addFiles existing paths) disk grown disk' → grown.Reloads) ∧
    ∀ text vocabulary, parse text = .ok vocabulary → vocabulary.Reloads := by
  refine ⟨fun vocabulary hg => ?_, fun lines => ?_, ?_, fun text vocabulary h => ?_⟩
  · have hb : vocabulary.BlankFree ↔
        ∀ token id, vocabulary.idOf? token = some id → Text.anyBlank token = false :=
      ⟨fun h token id hid => h token (Fields.mem_names_iff.mpr ⟨id, hid⟩),
        fun h token ht => (Fields.mem_names_iff.mp ht).elim (h token)⟩
    rw [← hb]
    exact ⟨Reloads.blankFree, reloads_of_blankFree hg⟩
  · exact reloads_of_blankFree ((extends_ofLines lines).gapless_iff.mpr gapless_empty)
      (.ofLines lines)
  · intro existing grown paths disk disk' he ha
    have hold : existing.Gapless ∧ existing.BlankFree := by
      rcases he with rfl | he
      · exact ⟨gapless_empty, blankFree_empty⟩
      · exact ⟨he.gapless, he.blankFree⟩
    exact reloads_of_blankFree ((extends_addFiles ha).gapless_iff.mpr hold.1)
      (hold.2.addFiles ha)
  · have he : vocabulary.Enumerates (fileLines text) := by
      rw [Enumerates, (parse_eq_ok_iff.mp h).2.2]
    exact reloads_of_blankFree he.gapless (blankFree_of_parse h)

/-- Ids in another order than that of the tokens, and an empty token. -/
theorem reloads_iff_permuted :
    (ofPairs [("if", 2), ("", 0), ("(", 1)]).Gapless ∧
    (ofPairs [("if", 2), ("", 0), ("(", 1)]).Reloads ∧
    (ofPairs [("if", 1), ("a b", 0)]).Gapless ∧ ¬ (ofPairs [("if", 1), ("a b", 0)]).Reloads := by
  have hg : (ofPairs [("if", 2), ("", 0), ("(", 1)]).Gapless := gapless_iff.mpr (by decide)
  have hg' : (ofPairs [("if", 1), ("a b", 0)]).Gapless := gapless_iff.mpr (by decide)
  have hb : ∀ token ∈ Fields.names (ofPairs [("if", 2), ("", 0), ("(", 1)]).entries,
      Text.anyBlank token = false := by decide
  refine ⟨hg, (reloads_iff.1 _ hg).mpr fun token id hid => ?_, hg', fun h => ?_⟩
  · exact hb token (Fields.mem_names_iff.mpr ⟨id, hid⟩)
  · exact absurd ((reloads_iff.1 _ hg').mp h "a b" 0 rfl) (by decide)

end TreeSeq.Vocabulary
