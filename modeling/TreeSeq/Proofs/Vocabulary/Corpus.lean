import TreeSeq.Proofs.CommandLine.Traces
import TreeSeq.Proofs.Vocabulary.File

/-!
# Vocabularies of corpora

A vocabulary that was built from nothing, from lines or from a vocabulary file, and grown
by any steps, has the ids `0, 1, …` in the order of its tokens (`Built.ids_eq`). What text
files add to it is told by the words of their texts alone: those that are new, each where
it stands first (`entries_insertAll`). Since a line break is a blank, no line matters, nor
does it matter which files are read together.

* `Built`: the steps that build a vocabulary;
* `unseen`: what is new among some words;
* `yields_addFiles`: what files of texts add;
* `addFiles_flatten`: files that are read in groups;
* `scan_built`: all of this for a vocabulary that was built.
-/

namespace TreeSeq

/-- The paths lead to files with these texts. -/
def Disk.Reads (disk : Disk) (paths : List Path) (texts : List String) : Prop :=
  List.Forall₂ (fun path text => disk.read path = .ok text.toUTF8) paths texts

namespace Vocabulary

variable {vocabulary grown : Vocabulary} {disk : Disk}

/-! ## Words that are new -/

/-- The tokens that are not there yet, each where it stands first. -/
def unseen (vocabulary : Vocabulary) (tokens : List String) : List String :=
  (tokens.filter fun token => (vocabulary.idOf? token).isNone).eraseDups

theorem isNone_idOf?_iff {token : String} :
    (vocabulary.idOf? token).isNone ↔ token ∉ Fields.names vocabulary.entries := by
  rw [Option.isNone_iff_eq_none, idOf?, Fields.get?_eq_none_iff]

theorem names_insert (vocabulary : Vocabulary) (token : String) :
    Fields.names (vocabulary.insert token).entries =
      if token ∈ Fields.names vocabulary.entries then Fields.names vocabulary.entries
      else Fields.names vocabulary.entries ++ [token] := by
  cases h : vocabulary.idOf? token with
  | some id => rw [insert_eq_self h, if_pos (Fields.mem_names_iff.mpr ⟨id, h⟩)]
  | none =>
    rw [insert_of_idOf? h, Fields.names_append, if_neg (Fields.get?_eq_none_iff.mp h)]
    rfl

theorem names_insertAll (vocabulary : Vocabulary) (tokens : List String) :
    Fields.names (vocabulary.insertAll tokens).entries =
      Fields.names vocabulary.entries ++ vocabulary.unseen tokens := by
  rw [insertAll, Fields.foldl_eq_append (fun grown : Vocabulary => Fields.names grown.entries)
    names_insert, unseen]
  congr 2
  refine List.filter_congr fun token _ => ?_
  rw [Bool.eq_iff_iff, decide_eq_true_eq, isNone_idOf?_iff]

/-- The tokens that are new get the next ids. -/
theorem entries_insertAll (vocabulary : Vocabulary) (tokens : List String) :
    (vocabulary.insertAll tokens).entries =
      vocabulary.entries ++ (vocabulary.unseen tokens).zipIdx vocabulary.nextId := by
  obtain ⟨new, hnew⟩ := extends_insertAll vocabulary tokens
  have hn := names_insertAll vocabulary tokens
  rw [hnew, Fields.names_append, List.append_cancel_left_eq, Fields.names,
    List.zipIdx_map_fst] at hn
  rw [hnew, hn]

/-- Tokens that were added are not new any more. -/
theorem insertAll_insertAll (vocabulary : Vocabulary) (tokens : List String) :
    (vocabulary.insertAll tokens).insertAll tokens = vocabulary.insertAll tokens := by
  have hnone : (vocabulary.insertAll tokens).unseen tokens = [] := by
    rw [unseen, List.filter_eq_nil_iff.mpr, List.eraseDups_nil]
    intro token ht
    rw [isNone_idOf?_iff, not_not, names_insertAll, List.mem_append, unseen, List.mem_eraseDups,
      List.mem_filter, isNone_idOf?_iff]
    exact (em _).imp_right fun hn => ⟨ht, hn⟩
  refine eq_of_entries ?_
  rw [entries_insertAll, hnone, List.zipIdx_nil, List.append_nil]

theorem insertAll_append (vocabulary : Vocabulary) (tokens others : List String) :
    vocabulary.insertAll (tokens ++ others) = (vocabulary.insertAll tokens).insertAll others :=
  List.foldl_append

/-! ## Lines and files -/

theorem foldl_addLine (vocabulary : Vocabulary) (lines : List String) :
    lines.foldl addLine vocabulary = vocabulary.insertAll (lines.flatMap Text.words) := by
  induction lines generalizing vocabulary with
  | nil => rfl
  | cons line rest ih => rw [List.foldl_cons, ih, List.flatMap_cons, insertAll_append, addLine]

theorem addLines_ofText (vocabulary : Vocabulary) (lines : List String) :
    vocabulary.addLines (lines.map Document.ofText) = .ok (lines.foldl addLine vocabulary) := by
  induction lines generalizing vocabulary with
  | nil => rfl
  | cons line rest ih =>
    rw [List.map_cons, addLines, Document.text?_ofText]
    exact ih _

/-- A text file adds the words of its text. -/
theorem addFile_toUTF8 (vocabulary : Vocabulary) (text : String) :
    vocabulary.addFile text.toUTF8 = .ok (vocabulary.insertAll (Text.words text)) := by
  rw [addFile, Document.ofBytes_toUTF8, Document.lines_ofText, addLines_ofText, foldl_addLine,
    Text.flatMap_words_lines]

theorem yields_addFiles (vocabulary : Vocabulary) {paths : List Path} {texts : List String}
    (h : disk.Reads paths texts) : Disk.Yields (Batch.addFiles vocabulary paths) disk
      (vocabulary.insertAll (texts.flatMap Text.words)) disk := by
  induction h generalizing vocabulary with
  | nil => rfl
  | @cons path text paths texts hread _ ih =>
    rw [Batch.addFiles, List.foldlM_cons, List.flatMap_cons, insertAll_append]
    refine Disk.yields_bind_iff.mpr ⟨_, disk, ?_, ih _⟩
    refine Disk.yields_bind_iff.mpr ⟨text.toUTF8, disk, ?_, ?_⟩
    · rw [Disk.yields_iff_run, Disk.run_load, hread]
      rfl
    · exact Disk.yields_ofExcept_iff.mpr ⟨addFile_toUTF8 _ _, rfl⟩

theorem addFiles_append (vocabulary : Vocabulary) (paths others : List Path) :
    (Batch.addFiles vocabulary (paths ++ others) : ExceptT Error (StateM Disk) Vocabulary) =
      Batch.addFiles vocabulary paths >>= fun grown => Batch.addFiles grown others :=
  List.foldlM_append

/-- Files are read alike all at once and group by group. -/
theorem addFiles_flatten (vocabulary : Vocabulary) (groups : List (List Path)) :
    groups.foldlM Batch.addFiles vocabulary =
      (Batch.addFiles vocabulary groups.flatten : ExceptT Error (StateM Disk) Vocabulary) := by
  induction groups generalizing vocabulary with
  | nil => rfl
  | cons group rest ih =>
    rw [List.foldlM_cons, List.flatten_cons, addFiles_append]
    exact bind_congr ih

/-! ## Building -/

/-- A vocabulary is made of nothing, of lines, or of a vocabulary file, and grows. The words
of text files are added to one that is there, or to none. -/
inductive Built : Vocabulary → Prop where
  | empty : Built .empty
  | ofLines (lines : List String) : Built (ofLines lines)
  | parse {text : String} {vocabulary : Vocabulary} (h : parse text = .ok vocabulary) :
      Built vocabulary
  | load {bytes : ByteArray} {vocabulary : Vocabulary} (h : load bytes = .ok vocabulary) :
      Built vocabulary
  | grow {vocabulary grown : Vocabulary} (h : Built vocabulary) (hg : Grows vocabulary grown) :
      Built grown

theorem nextId_of_ids (h : vocabulary.ids = List.range vocabulary.size) :
    vocabulary.nextId = vocabulary.size :=
  nextId_of_gapless (List.Perm.of_eq h)

/-- New tokens keep the ids in order. -/
theorem Extends.ids_eq (h : grown.Extends vocabulary)
    (hv : vocabulary.ids = List.range vocabulary.size) : grown.ids = List.range grown.size := by
  obtain ⟨tokens, ht⟩ := h
  rw [ids_of_entries ht, hv, size_of_entries ht, nextId_of_ids hv, List.range_eq_range', List.range_eq_range',
    ← List.range'_append_1, Nat.zero_add]

theorem ids_of_parse {text : String} (h : parse text = .ok vocabulary) :
    vocabulary.ids = List.range vocabulary.size := by
  rw [ids, size, (parse_eq_ok_iff.mp h).2.2, List.zipIdx_map_snd, List.length_zipIdx,
    List.range_eq_range']

/-- The ids are handed out in order. -/
theorem Built.ids_eq (h : Built vocabulary) : vocabulary.ids = List.range vocabulary.size := by
  induction h with
  | empty => rfl
  | ofLines lines => exact (extends_ofLines lines).ids_eq rfl
  | parse h => exact ids_of_parse h
  | load h =>
    rw [Vocabulary.load] at h
    split at h
    · exact ids_of_parse h
    · cases h
  | grow _ hg ih => exact (extends_of_grows hg).ids_eq ih

end Vocabulary

end TreeSeq

namespace TreeSeq.CommandLine

open Disk (Yields)
open Batch (addFiles)

variable {vocabulary grown : Vocabulary} {disk disk' : Disk} {pattern : String} {input : Path}
  {paths : List Path}

/-- An input stands for itself if it is a file, and for the files that are found in it if it
is a directory. -/
def StandsFor (disk : Disk) (pattern : String) (input : Path) (paths : List Path) : Prop :=
  match disk.kind? input with
  | some .file => paths = [input]
  | some .directory => ∃ sources, Yields (Batch.discover input pattern) disk sources disk ∧
      paths = sources.map (·.path)
  | none => False

theorem eq_of_yields_addFiles (h : Yields (addFiles vocabulary paths) disk grown disk') :
    disk' = disk := by
  rw [Disk.yields_iff_run] at h
  cases settles_addFiles disk vocabulary paths with
  | fails hf => cases hf.symm.trans h
  | finds hf => exact (Prod.mk.inj (hf.symm.trans h)).2.symm

/-- Inputs are read one after the other. -/
theorem run_addInputs {inputs : List Path} {groups : List (List Path)}
    (h : List.Forall₂ (StandsFor disk pattern) inputs groups)
    (hy : Yields (groups.foldlM addFiles vocabulary) disk grown disk) :
    disk.run (addInputs vocabulary inputs pattern) = (.ok grown, disk) := by
  induction h generalizing vocabulary with
  | nil =>
    cases hy
    rfl
  | @cons input paths inputs groups hin _ ih =>
    rw [List.foldlM_cons] at hy
    obtain ⟨next, between, hnext, hrest⟩ := Disk.yields_bind_iff.mp hy
    obtain rfl := eq_of_yields_addFiles hnext
    rw [addInputs, List.foldlM_cons]
    refine (Disk.run_bind_of_ok ?_).trans (ih hrest)
    refine (Disk.run_bind_of_ok (between.run_adapt Failure.plain (Files.kindOf input))).trans ?_
    cases hk : between.kind? input with
    | none =>
      rw [StandsFor, hk] at hin
      exact hin.elim
    | some kind =>
      rw [StandsFor, hk] at hin
      cases kind with
      | file =>
        subst hin
        exact Disk.run_adapt_eq_ok_iff.mpr hnext
      | directory =>
        obtain ⟨sources, hf, rfl⟩ := hin
        exact Disk.run_adapt_eq_ok_iff.mpr (Disk.yields_bind_iff.mpr ⟨_, _, hf, hnext⟩)

end TreeSeq.CommandLine

namespace TreeSeq.Vocabulary

open Disk (Yields)
open Batch (addFiles)

variable {vocabulary : Vocabulary}

/-- A vocabulary that was built has the ids `0, 1, …` in the order of its tokens, which
differ, and its size is the id of the next token. Text files add the words of their texts
that are new, each where it stands first. What comes out is the same for all files and all
lines with these words, for files that are read in groups or as inputs of a command, and
for files that are read twice. -/
theorem scan_built (h : Built vocabulary) :
    (vocabulary.ids = List.range vocabulary.size ∧ (Fields.names vocabulary.entries).Nodup ∧
      ∀ token, vocabulary.idOf? token = none →
        (vocabulary.insert token).entries = vocabulary.entries ++ [(token, vocabulary.size)]) ∧
    ∀ (disk : Disk) paths texts, disk.Reads paths texts → ∃ grown : Vocabulary,
      Yields (addFiles vocabulary paths) disk grown disk ∧
      grown.entries = vocabulary.entries ++
        (vocabulary.unseen (texts.flatMap Text.words)).zipIdx vocabulary.size ∧
      (∀ (disk' : Disk) paths' texts', disk'.Reads paths' texts' →
        texts'.flatMap Text.words = texts.flatMap Text.words →
          Yields (addFiles vocabulary paths') disk' grown disk') ∧
      (∀ lines : List String, lines.flatMap Text.words = texts.flatMap Text.words →
        lines.foldl addLine vocabulary = grown) ∧
      (∀ groups : List (List Path), groups.flatten = paths →
        Yields (groups.foldlM addFiles vocabulary) disk grown disk ∧
        ∀ pattern inputs, List.Forall₂ (CommandLine.StandsFor disk pattern) inputs groups →
          disk.run (CommandLine.addInputs vocabulary inputs pattern) = (.ok grown, disk)) ∧
      Yields (addFiles grown paths) disk grown disk := by
  have hnext := nextId_of_ids h.ids_eq
  refine ⟨⟨h.ids_eq, vocabulary.distinct, fun token ht => ?_⟩, fun disk paths texts hr => ?_⟩
  · rw [insert_of_idOf? ht, hnext]
    rfl
  refine ⟨_, yields_addFiles vocabulary hr, hnext ▸ entries_insertAll _ _,
    fun disk' paths' texts' hr' he => ?_, fun lines he => ?_, fun groups hg => ?_, ?_⟩
  · exact he ▸ yields_addFiles vocabulary hr'
  · rw [foldl_addLine, he]
  · have hy := yields_addFiles vocabulary hr
    rw [← hg, ← addFiles_flatten] at hy
    exact ⟨hy, fun pattern inputs hin => CommandLine.run_addInputs hin hy⟩
  · have hy := yields_addFiles (vocabulary.insertAll (texts.flatMap Text.words)) hr
    rwa [insertAll_insertAll] at hy

/-- Two files of words, one of them in a directory. -/
def corpus : Disk :=
  ⟨[(["a"], .file "( x\r\n\n y\u2003x".toUTF8), (["in"], .directory),
    (["in", "b"], .file "y z\n".toUTF8)], by decide⟩

/-- What the files add to the words of a line. -/
theorem scan_built_corpus :
    Built (ofLines ["if ("]) ∧ corpus.Reads [⟨"a"⟩, ⟨"in/b"⟩] ["( x\r\n\n y\u2003x", "y z\n"] ∧
    ∃ grown : Vocabulary,
      Yields (addFiles (ofLines ["if ("]) [⟨"a"⟩, ⟨"in/b"⟩]) corpus grown corpus ∧
      grown.entries = [("if", 0), ("(", 1), ("x", 2), ("y", 3), ("z", 4)] ∧
      Yields ([[⟨"a"⟩], [⟨"in/b"⟩]].foldlM addFiles (ofLines ["if ("])) corpus grown corpus ∧
      ["( x y", "x", "y z"].foldl addLine (ofLines ["if ("]) = grown ∧
      Yields (addFiles grown [⟨"a"⟩, ⟨"in/b"⟩]) corpus grown corpus := by
  have hbuilt : Built (ofLines ["if ("]) := .ofLines _
  have hreads : corpus.Reads [⟨"a"⟩, ⟨"in/b"⟩] ["( x\r\n\n y\u2003x", "y z\n"] :=
    .cons rfl (.cons rfl .nil)
  obtain ⟨-, hscan⟩ := scan_built hbuilt
  obtain ⟨grown, hy, he, -, hlines, hgroups, hagain⟩ := hscan corpus _ _ hreads
  refine ⟨hbuilt, hreads, grown, hy, he, (hgroups _ rfl).1, hlines _ ?_, hagain⟩
  decide

end TreeSeq.Vocabulary
