import TreeSeq.CommandLine.Run
import TreeSeq.Proofs.Batch.Contents
import TreeSeq.Proofs.Vocabulary.File

/-!
# Commands that fail leave no trace

What a command asks for is there or not before it starts (`Ready`). All of it is read and
checked before anything is written: a command that is not ready fails with the disk as it
was, and one that is ready fails by a fault in writing alone (`guarded_execute`). The same
holds of batches, and of the files in them (`traceless_failures`).
-/

namespace TreeSeq.CommandLine

open Batch (Findable Task discover)
open Disk (FailsBy Guarded Settles Yields)

variable {settings : Settings} {disk : Disk} {input : Path} {vocabulary : Vocabulary}

/-! ## What commands ask for -/

/-- The vocabulary is in the file that a command is given, or else in the one that is set. -/
def Grants (settings : Settings) (disk : Disk) (given : Option Path) (vocabulary : Vocabulary) :
    Prop :=
  ∃ path bytes, settings.vocabulary given = .ok path ∧ disk.read path = .ok bytes ∧
    Vocabulary.load bytes = .ok vocabulary

/-- The path leads to a text file, or to a directory in which all files that are found are
texts. -/
def Corpus (disk : Disk) (pattern : String) (input : Path) : Prop :=
  match disk.kind? input with
  | some .file => disk.Provides input .text
  | some .directory => ∃ sources, Yields (discover input pattern) disk sources disk ∧
      ∀ source ∈ sources, disk.Provides source.path .text
  | none => False

/-- All that a command reads is there, and is what it is read as. -/
def Ready (settings : Settings) (disk : Disk) : Command → Prop
  | .encode input _ base => disk.Provides input (.tree base)
  | .decode input _ => disk.Provides input .singleTree
  | .encodeAll input _ flags => Findable disk input (settings.options .encode flags).pattern
  | .decodeAll input _ flags => Findable disk input (settings.options .decode flags).pattern
  | .vocabulary inputs _ existing pattern =>
    (∀ path ∈ existing, disk.Provides path .vocabulary) ∧
      ∀ input ∈ inputs, Corpus disk (settings.pattern .vocabulary pattern) input
  | .hash input given _ =>
    (∃ vocabulary, Grants settings disk given vocabulary) ∧ disk.Provides input .text
  | .unhash input given _ =>
    ∃ vocabulary, Grants settings disk given vocabulary ∧
      disk.Provides input (.streams vocabulary)
  | .hashAll input given _ flags =>
    (∃ vocabulary, Grants settings disk given vocabulary) ∧
      Findable disk input (settings.options .hash flags).pattern
  | .unhashAll input given _ flags =>
    (∃ vocabulary, Grants settings disk given vocabulary) ∧
      Findable disk input (settings.options .unhash flags).pattern
  | .vectorize input _ features _ =>
    disk.Provides input .sequence ∧
      ∀ path ∈ features, (disk.kind? path).isSome → disk.Provides path .columns
  | .vectorizeAll input _ features flags =>
    (∀ path ∈ features, disk.Provides path .columns) ∧
      Findable disk input (settings.options .vectorize flags).pattern
  | .stats input => disk.Provides input .sequence

/-- A fault in writing ends a command. -/
inductive Interrupted : Failure → Disk → Prop
  | plain {e : Error} {disk' : Disk} (h : Disk.Interrupted e disk') : Interrupted (.plain e) disk'
  | ofWriting {e : Error} {disk' : Disk} (h : Disk.Interrupted e disk') :
    Interrupted (.ofWriting e) disk'

/-! ## Readings -/

theorem settles_loadSequence (disk : Disk) (path : Path) :
    disk.Settles (loadSequence path) (disk.Provides path .sequence)
      fun sequence => ∃ bytes, disk.read path = .ok bytes ∧ Sequence.load bytes = .ok sequence :=
  ((disk.settles_loadRecords path).check Sequence.load).adapt _

theorem settles_loadColumns (disk : Disk) (path : Path) :
    disk.Settles (loadColumns path) (disk.Provides path .columns)
      fun columns => ∃ bytes, disk.read path = .ok bytes ∧ Columns.load bytes = .ok columns :=
  (disk.settles_loadRecords path).check Columns.load

theorem settles_loadVocabulary (disk : Disk) (path : Path) :
    disk.Settles (loadVocabulary path) (disk.Provides path .vocabulary)
      fun vocabulary => ∃ bytes, disk.read path = .ok bytes ∧
        Vocabulary.load bytes = .ok vocabulary :=
  (disk.settles_load path).check Vocabulary.load

theorem settles_settle {α : Type} (value : Except SettingsFault α) :
    disk.Settles (settle value) (∃ a, value = .ok a) (value = .ok ·) := by
  cases value with
  | error fault => exact .fails rfl (by rintro ⟨a, ⟨⟩⟩)
  | ok a => exact .finds rfl ⟨a, rfl⟩ rfl

theorem settles_vocabularyFor (settings : Settings) (disk : Disk) (given : Option Path) :
    disk.Settles (vocabularyFor settings given)
      (∃ vocabulary, Grants settings disk given vocabulary) (Grants settings disk given) := by
  rw [vocabularyFor]
  refine (settles_settle (settings.vocabulary given)).bind ?_ fun path _ hpath => ?_
  · rintro ⟨vocabulary, path, bytes, hs, -⟩
    exact ⟨path, hs⟩
  · refine ((settles_loadVocabulary disk path).adapt _).imp ?_ ?_
    · constructor
      · rintro ⟨bytes, hr, vocabulary, hl⟩
        exact ⟨vocabulary, path, bytes, hpath, hr, hl⟩
      · rintro ⟨vocabulary, other, bytes, hs, hr, hl⟩
        rw [hpath] at hs
        cases hs
        exact ⟨bytes, hr, vocabulary, hl⟩
    · rintro vocabulary ⟨bytes, hr, hl⟩
      exact ⟨path, bytes, hpath, hr, hl⟩

/-- The words of some files are added if all of them are texts. -/
theorem settles_addFiles (disk : Disk) (vocabulary : Vocabulary) (paths : List Path) :
    disk.Settles (Batch.addFiles vocabulary paths) (∀ path ∈ paths, disk.Provides path .text)
      (·.Extends vocabulary) := by
  refine Disk.settles_foldlM (fun grown path hg => ?_) paths (.refl vocabulary)
  refine ((disk.settles_load path).check grown.addFile).imp ?_ ?_
  · simp only [Disk.Provides, Content.Accepts, Vocabulary.exists_addFile_iff]
  · rintro further ⟨bytes, -, ha⟩
    exact hg.trans (Vocabulary.extends_addFile ha)

/-- The words of an input are added if it is a corpus. -/
theorem settles_addInput (disk : Disk) (vocabulary : Vocabulary) (pattern : String)
    (input : Path) :
    disk.Settles (do
      match ← plainly (Files.kindOf input) with
      | some .directory => plainly (Batch.addDirectory vocabulary input pattern)
      | some .file => plainly (Batch.addFiles vocabulary [input])
      | none => throw (.bare (.missingInput input.text))) (Corpus disk pattern input)
      (·.Extends vocabulary) := by
  refine ((disk.settles_kindOf input).adapt _).bind (fun _ => trivial) fun kind _ hk => ?_
  rw [Corpus, hk]
  cases kind with
  | none => exact .fails rfl id
  | some kind =>
    cases kind with
    | file =>
      refine (settles_addFiles disk vocabulary [input]).adapt _ |>.imp ?_ fun _ h => h
      rw [List.forall_mem_singleton]
    | directory =>
      refine ((Batch.settles_discover disk input pattern).bind ?_ fun sources _ hf => ?_).adapt _
      · rintro ⟨sources, hf, -⟩
        obtain ⟨-, hkind, patterns, hp, -⟩ := Batch.yields_discover_iff.mp hf
        exact ⟨hkind, patterns, hp⟩
      · refine (settles_addFiles disk vocabulary _).imp ?_ fun _ h => h
        rw [List.forall_mem_map]
        constructor
        · exact fun h => ⟨sources, hf, h⟩
        · rintro ⟨others, ho, h⟩
          obtain rfl : sources = others := Except.ok.inj (Prod.mk.inj (hf.symm.trans ho)).1
          exact h

theorem settles_addInputs (disk : Disk) (vocabulary : Vocabulary) (inputs : List Path)
    (pattern : String) :
    disk.Settles (addInputs vocabulary inputs pattern) (∀ input ∈ inputs, Corpus disk pattern input)
      (·.Extends vocabulary) := by
  refine Disk.settles_foldlM (fun grown input hg => ?_) inputs (.refl vocabulary)
  exact (settles_addInput disk grown pattern input).imp Iff.rfl fun _ hf => hg.trans hf

/-! ## Commands -/

theorem guarded_plainly {α : Type} {program : ExceptT Error (StateM Disk) α} {there : Prop}
    (h : Guarded Disk.Interrupted disk program there) :
    Guarded Interrupted disk (plainly program) there :=
  h.adapt fun _ _ => .plain

/-- Something is made of what a file holds, if the file holds it and something can be made
of it, and is saved. -/
theorem guarded_made {α β : Type} {content : Content} {program : ExceptT Failure (StateM Disk) α}
    {load : ByteArray → Except Error α} {make : α → Except Error β}
    (h : disk.Settles program (∃ bytes, disk.read input = .ok bytes ∧ ∃ a, load bytes = .ok a)
      fun a => ∃ bytes, disk.read input = .ok bytes ∧ load bytes = .ok a)
    (hc : ∀ bytes, content.Accepts bytes ↔ ∃ a b, load bytes = .ok a ∧ make a = .ok b)
    (output : Path) (text : β → String) (told : β → Told) :
    Guarded Interrupted disk (do
      let a ← program
      plainly do
        let b ← ofExcept (make a)
        Files.save output (text b)
        return told b) (disk.Provides input content) := by
  refine .bind h ?_ ?_
  · rintro ⟨bytes, hr, ha⟩
    obtain ⟨a, -, hl, -⟩ := (hc bytes).mp ha
    exact ⟨bytes, hr, a, hl⟩
  rintro a - ⟨bytes, hr, hl⟩
  have hp : disk.Provides input content ↔ ∃ b, make a = .ok b := by
    rw [Disk.provides_of_read hr, hc]
    constructor
    · rintro ⟨other, b, ho, hb⟩
      rw [hl] at ho
      cases ho
      exact ⟨b, hb⟩
    · rintro ⟨b, hb⟩
      exact ⟨a, b, hl, hb⟩
  refine guarded_plainly (.bind (Disk.settles_ofExcept _) hp.mp fun b hb _ => ?_)
  exact .of_failsBy ((Disk.failsBy_save _ _).bind fun _ => .pure _) (hp.mpr hb)

theorem guarded_encode (settings : Settings) (disk : Disk) (input output : Path) (base : Nat) :
    Guarded Interrupted disk (execute settings (.encode input output base))
      (disk.Provides input (.tree base)) :=
  guarded_made (((disk.settles_load input).check Node.load).adapt _) (fun _ => Iff.rfl) output _ _

theorem guarded_decode (settings : Settings) (disk : Disk) (input output : Path) :
    Guarded Interrupted disk (execute settings (.decode input output))
      (disk.Provides input .singleTree) :=
  guarded_made (settles_loadSequence disk input) (fun _ => Iff.rfl) output _ _

/-- A vocabulary grows by the words of its inputs and is saved. -/
theorem guarded_grown {start : Vocabulary} (hg : start.Gapless) (disk : Disk) (inputs : List Path)
    (output : Path) (pattern : String) :
    Guarded Interrupted disk (do
      let vocabulary ← addInputs start inputs pattern
      plainly do
        Files.save output (← ofExcept vocabulary.save)
        return Told.made ("vocabulary of " ++ toString vocabulary.size ++ " tokens") output)
      (∀ input ∈ inputs, Corpus disk pattern input) := by
  refine .bind (settles_addInputs disk start inputs pattern) id fun grown hinputs hext => ?_
  obtain ⟨text, hsave⟩ := Vocabulary.exists_save_of_gapless (hext.gapless_iff.mpr hg)
  refine guarded_plainly (.bind (Disk.settles_ofExcept _) (fun _ => ⟨text, hsave⟩) fun _ _ _ => ?_)
  exact .of_failsBy ((Disk.failsBy_save _ _).bind fun _ => .pure _) hinputs

theorem guarded_vocabulary (settings : Settings) (disk : Disk) (inputs : List Path) (output : Path)
    (existing : Option Path) (pattern : Option String) :
    Guarded Interrupted disk (execute settings (.vocabulary inputs output existing pattern))
      ((∀ path ∈ existing, disk.Provides path .vocabulary) ∧
        ∀ input ∈ inputs, Corpus disk (settings.pattern .vocabulary pattern) input) := by
  cases existing with
  | none =>
    refine .congr (guarded_grown Vocabulary.gapless_empty disk inputs output _) ?_
    exact ⟨fun h => ⟨nofun, h⟩, And.right⟩
  | some path =>
    simp only [Option.mem_def, Option.some.injEq, forall_eq']
    refine .bind ((settles_loadVocabulary disk path).adapt _) And.left ?_
    rintro start hexisting ⟨bytes, -, hl⟩
    refine (guarded_grown (Vocabulary.gapless_of_load hl) disk inputs output _).congr ?_
    exact ⟨fun h => ⟨hexisting, h⟩, And.right⟩

/-- A file is converted with the hasher of a vocabulary. -/
theorem guarded_hashing (make : Hasher → Batch.Conversion) (told : Nat → Told) (disk : Disk)
    (input output : Path) {content : Content} {there : Prop} (hg : vocabulary.Gapless)
    (hmake : ∀ hasher : Hasher, hasher.vocabulary = vocabulary → ∀ bytes,
      (∃ product, make hasher bytes = .ok product) ↔ content.Accepts bytes)
    (hthere : disk.Provides input content ↔ there) :
    Guarded Interrupted disk (plainly do
      let hasher ← ofExcept (Hasher.ofVocabulary vocabulary)
      let count ← Batch.convertFile (make hasher) input output
      return told count) there := by
  refine guarded_plainly (.bind (Disk.settles_ofExcept _)
    (fun _ => Hasher.exists_ofVocabulary_iff.mpr hg) fun hasher _ hh => ?_)
  have hconvert := Batch.guarded_convertFile (hmake hasher (Hasher.ofVocabulary_eq_ok_iff.mp hh))
    disk input output
  exact (hconvert.congr hthere).andThen fun _ => .pure _

theorem gapless_of_grants {given : Option Path} (h : Grants settings disk given vocabulary) :
    vocabulary.Gapless := by
  obtain ⟨path, bytes, -, -, hl⟩ := h
  exact Vocabulary.gapless_of_load hl

/-- There is one vocabulary at most. -/
theorem grants_unique {given : Option Path} {other : Vocabulary}
    (h : Grants settings disk given vocabulary) (ho : Grants settings disk given other) :
    vocabulary = other := by
  obtain ⟨path, bytes, hs, hr, hl⟩ := h
  obtain ⟨path', bytes', hs', hr', hl'⟩ := ho
  cases Except.ok.inj (hs.symm.trans hs')
  cases Except.ok.inj (hr.symm.trans hr')
  exact Except.ok.inj (hl.symm.trans hl')

theorem guarded_hash (settings : Settings) (disk : Disk) (input : Path) (given : Option Path)
    (output : Path) :
    Guarded Interrupted disk (execute settings (.hash input given output))
      ((∃ vocabulary, Grants settings disk given vocabulary) ∧ disk.Provides input .text) := by
  rw [execute]
  refine .bind (settles_vocabularyFor settings disk given) And.left fun vocabulary hv hg => ?_
  refine guarded_hashing .hash _ disk input output (gapless_of_grants hg)
    (fun _ _ _ => Batch.exists_hash_iff) ?_
  exact ⟨fun h => ⟨hv, h⟩, And.right⟩

theorem guarded_unhash (settings : Settings) (disk : Disk) (input : Path) (given : Option Path)
    (output : Path) :
    Guarded Interrupted disk (execute settings (.unhash input given output))
      (∃ vocabulary, Grants settings disk given vocabulary ∧
        disk.Provides input (.streams vocabulary)) := by
  rw [execute]
  refine .bind (settles_vocabularyFor settings disk given)
    (fun ⟨vocabulary, hg, _⟩ => ⟨vocabulary, hg⟩) fun vocabulary hv hg => ?_
  refine guarded_hashing .unhash _ disk input output (gapless_of_grants hg)
    (fun hasher hh _ => hh ▸ Batch.exists_unhash_iff) ?_
  constructor
  · exact fun h => ⟨vocabulary, hg, h⟩
  · rintro ⟨other, ho, h⟩
    rwa [grants_unique hg ho]

/-- A batch that needs a vocabulary. -/
theorem guarded_granted (settings : Settings) (disk : Disk) (given : Option Path)
    (make : Vocabulary → Task) (told : Batch.Report → Told) (input output : Path)
    (options : Batch.Options)
    (hmake : ∀ vocabulary, (make vocabulary).Usable ↔ vocabulary.Gapless) :
    Guarded Interrupted disk (do
      let vocabulary ← vocabularyFor settings given
      plainly do return told (← (make vocabulary).run input output options))
      ((∃ vocabulary, Grants settings disk given vocabulary) ∧
        Findable disk input options.pattern) := by
  refine .bind (settles_vocabularyFor settings disk given) And.left fun vocabulary hv hg => ?_
  refine guarded_plainly (.andThen ?_ fun _ => .pure _)
  refine (Batch.guarded_task (make vocabulary) disk input output options).congr ?_
  rw [hmake]
  exact ⟨fun h => ⟨hv, h.2⟩, fun h => ⟨gapless_of_grants hg, h.2⟩⟩

/-- The columns that a command goes on from are in its feature file, if there is one. -/
theorem settles_startColumns (disk : Disk) (path : Path) :
    disk.Settles (plainly do
      if (← Files.kindOf path).isSome then loadColumns path else return .empty)
      ((disk.kind? path).isSome → disk.Provides path .columns) fun _ => True := by
  refine .adapt ((disk.settles_kindOf path).bind (fun _ => trivial) fun kind _ hk => ?_) _
  rw [hk]
  cases kind with
  | none => exact .finds rfl (fun h => by cases h) trivial
  | some kind =>
    exact (settles_loadColumns disk path).imp ⟨fun h _ => h, fun h => h rfl⟩ fun _ _ => trivial

theorem guarded_vectorize (settings : Settings) (disk : Disk) (input output : Path)
    (features : Option Path) (singlePass : Bool) :
    Guarded Interrupted disk (execute settings (.vectorize input output features singlePass))
      (disk.Provides input .sequence ∧
        ∀ path ∈ features, (disk.kind? path).isSome → disk.Provides path .columns) := by
  refine .bind (settles_loadSequence disk input) And.left fun sequence hsequence _ => ?_
  cases features with
  | none =>
    refine .of_failsBy ?_ ⟨hsequence, nofun⟩
    refine (FailsBy.pure Columns.empty).bind fun existing => ?_
    refine .bind ((Disk.failsBy_save _ _).adapt fun _ _ => .ofWriting) fun _ => ?_
    exact .pure _
  | some path =>
    simp only [Option.mem_def, Option.some.injEq, forall_eq']
    refine .bind (settles_startColumns disk path) And.right fun existing hcolumns _ => ?_
    refine .of_failsBy ?_ ⟨hsequence, hcolumns⟩
    refine .bind ((Disk.failsBy_save _ _).adapt fun _ _ => .ofWriting) fun _ => ?_
    exact .bind ((Disk.failsBy_save _ _).adapt fun _ _ => .plain) fun _ => .pure _

theorem guarded_vectorizeAll (settings : Settings) (disk : Disk) (input output : Path)
    (features : Option Path) (flags : BatchFlags) :
    Guarded Interrupted disk (execute settings (.vectorizeAll input output features flags))
      ((∀ path ∈ features, disk.Provides path .columns) ∧
        Findable disk input (settings.options .vectorize flags).pattern) := by
  have hbatch (existing : Columns) := Batch.guarded_vectorize existing disk input output
    (settings.options .vectorize flags)
  cases features with
  | none =>
    have hempty : disk.Settles (pure .empty : ExceptT Error (StateM Disk) Columns) True
        fun _ => True := .pure trivial
    refine guarded_plainly (.bind hempty (fun _ => trivial) ?_)
    refine fun existing _ _ => .andThen ((hbatch existing).congr ?_) fun _ => .pure _
    exact ⟨fun h => ⟨nofun, h⟩, And.right⟩
  | some path =>
    simp only [Option.mem_def, Option.some.injEq, forall_eq']
    refine guarded_plainly (.bind (settles_loadColumns disk path) And.left ?_)
    refine fun existing hcolumns _ => .andThen ((hbatch existing).congr ?_) fun _ => .pure _
    exact ⟨fun h => ⟨hcolumns, h⟩, And.right⟩

/-- Every command reads and checks all that it asks for before it writes. -/
theorem guarded_execute (settings : Settings) (disk : Disk) (command : Command) :
    Guarded Interrupted disk (execute settings command) (Ready settings disk command) := by
  cases command with
  | encode input output base => exact guarded_encode settings disk input output base
  | decode input output => exact guarded_decode settings disk input output
  | encodeAll input output flags =>
    exact guarded_plainly (.andThen (Batch.guarded_run _ _ disk input output _) fun _ => .pure _)
  | decodeAll input output flags =>
    exact guarded_plainly (.andThen (Batch.guarded_run _ _ disk input output _) fun _ => .pure _)
  | vocabulary inputs output existing pattern =>
    exact guarded_vocabulary settings disk inputs output existing pattern
  | hash input given output => exact guarded_hash settings disk input given output
  | unhash input given output => exact guarded_unhash settings disk input given output
  | hashAll input given output flags =>
    exact guarded_granted settings disk given .hash _ input output _ fun _ => Iff.rfl
  | unhashAll input given output flags =>
    exact guarded_granted settings disk given .unhash _ input output _ fun _ => Iff.rfl
  | vectorize input output features singlePass =>
    exact guarded_vectorize settings disk input output features singlePass
  | vectorizeAll input output features flags =>
    exact guarded_vectorizeAll settings disk input output features flags
  | stats input =>
    exact .bind (settles_loadSequence disk input) id fun _ hs _ => .of_failsBy (.pure _) hs

/-- Nothing is written for want of something to read. A command that is not ready fails and
leaves the disk as it is; one that is ready fails by a fault in writing alone. A batch fails
and leaves the disk as it is if what it is given is of no use, or files cannot be looked for;
otherwise its files are converted without a trace of those that are not what they are read
as. -/
theorem traceless_failures (disk : Disk) :
    (∀ settings command,
      (¬Ready settings disk command →
        ∃ failure, disk.run (execute settings command) = (.error failure, disk)) ∧
      (Ready settings disk command → ∀ failure disk',
        disk.run (execute settings command) = (.error failure, disk') →
          Interrupted failure disk')) ∧
    ∀ (task : Task) (input output : Path) (options : Batch.Options),
      (¬(task.Usable ∧ Findable disk input options.pattern) →
        ∃ e, disk.run (task.run input output options) = (.error e, disk)) ∧
      (task.Usable → Findable disk input options.pattern → ∀ outcome disk',
        disk.run (task.run input output options) = (outcome, disk') →
          task.Passes input output options disk disk' outcome) := by
  refine ⟨fun settings command => (guarded_execute settings disk command).outcome, ?_⟩
  intro task input output options
  refine ⟨(Batch.guarded_task task disk input output options).outcome.1, ?_⟩
  exact fun hu hf _ _ => task.passes hu hf

/-- A vocabulary of two tokens, and a stream whose last line has a third id. -/
def strayId : Disk :=
  ⟨[(["vocab"], .file "a\nb\n".toUTF8), (["stream"], .file "0 1\n\n1 2".toUTF8)], by decide⟩

/-- The vocabulary has no token for the last id. -/
theorem not_ready_strayId (output : Path) :
    ¬Ready .unset strayId (.unhash ⟨"stream"⟩ (some ⟨"vocab"⟩) output) := by
  have hvocabulary : strayId.read ⟨"vocab"⟩ = .ok "a\nb\n".toUTF8 := by decide +kernel
  have hstream : strayId.read ⟨"stream"⟩ = .ok "0 1\n\n1 2".toUTF8 := by decide +kernel
  rintro ⟨vocabulary, ⟨path, bytes, hpath, hr, hl⟩, hp⟩
  cases hpath
  rw [hvocabulary] at hr
  cases hr
  rw [Vocabulary.load_toUTF8] at hl
  obtain ⟨-, -, he⟩ := Vocabulary.parse_eq_ok_iff.mp hl
  have ht : vocabulary.Enumerates ["a", "b"] := List.Perm.of_eq he
  have hall := (Disk.provides_of_read hstream _).mp hp
  rw [Content.Accepts, Document.ofBytes_toUTF8, Document.lines_ofText] at hall
  obtain ⟨text, htext, hwords⟩ := hall (Document.ofText "1 2") (by decide +kernel)
  rw [Document.text?_ofText] at htext
  cases htext
  obtain ⟨id, token, hid, htoken⟩ := hwords "2" (by decide +kernel)
  have h2 : Text.readBelow? TokenStream.idLimit "2" = some 2 := by decide +kernel
  rw [h2] at hid
  cases hid
  rw [ht.idOf?_eq_some_iff] at htoken
  cases htoken

theorem traceless_failures_strayId :
    ∃ failure, strayId.run (execute .unset (.unhash ⟨"stream"⟩ (some ⟨"vocab"⟩) ⟨"out/text"⟩)) =
      (.error failure, strayId) :=
  ((traceless_failures strayId).1 _ _).1 (not_ready_strayId _)

end TreeSeq.CommandLine
