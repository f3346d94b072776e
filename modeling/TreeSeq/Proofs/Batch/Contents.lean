import TreeSeq.Proofs.Batch.Task
import TreeSeq.Proofs.Disk.Guarded
import TreeSeq.Proofs.Hasher.Acceptance

/-!
# What batches ask of their files

A file is read as some `Content`, which its path provides or not (`Disk.Provides`). A batch
that is given a vocabulary of no use, or cannot look for files, writes nothing at all
(`guarded_task`). One that can takes its files one by one (`Task.passes`), and a file that is
not what it is read as fails without a trace, wherever in the batch it is
(`Passage.traceless`).
-/

namespace TreeSeq

/-- What a file is read as. -/
inductive Content where
  /-- A tree to be numbered from `base` on. -/
  | tree (base : Nat)
  | sequence
  /-- A sequence that makes up one tree. -/
  | singleTree
  | vocabulary
  | columns
  | text
  /-- Lines of ids that the vocabulary has. -/
  | streams (known : Vocabulary)

namespace Content

/-- The bytes are what they are read as. -/
def Accepts : Content → ByteArray → Prop
  | .tree base, bytes =>
    ∃ tree sequence, Node.load bytes = .ok tree ∧ tree.encode base = .ok sequence
  | .sequence, bytes => ∃ sequence, Sequence.load bytes = .ok sequence
  | .singleTree, bytes =>
    ∃ sequence tree, Sequence.load bytes = .ok sequence ∧ sequence.decode = .ok tree
  | .vocabulary, bytes => ∃ vocabulary, Vocabulary.load bytes = .ok vocabulary
  | .columns, bytes => ∃ columns, Columns.load bytes = .ok columns
  | .text, bytes => Document.IsText (Document.ofBytes bytes).lines
  | .streams known, bytes => known.NumbersAll (Document.ofBytes bytes).lines

end Content

namespace Disk

variable {disk : Disk} {path : Path} {bytes : ByteArray}

/-- The path leads to a file, which is what it is read as. -/
def Provides (disk : Disk) (path : Path) (content : Content) : Prop :=
  ∃ bytes, disk.read path = .ok bytes ∧ content.Accepts bytes

theorem provides_of_read (h : disk.read path = .ok bytes) (content : Content) :
    disk.Provides path content ↔ content.Accepts bytes := by
  constructor
  · rintro ⟨other, hr, ha⟩
    rw [h] at hr
    cases hr
    exact ha
  · exact fun ha => ⟨bytes, h, ha⟩

end Disk

namespace Batch

open Disk (Guarded Interrupted Settles Yields)

variable {disk : Disk} {convert : Conversion} {task : Task} {input output : Path}
  {options : Options}

/-! ## Files that are converted -/

/-- A conversion writes nothing unless the file is what it is read as. -/
theorem guarded_convertFile {content : Content}
    (h : ∀ bytes, (∃ product, convert bytes = .ok product) ↔ content.Accepts bytes)
    (disk : Disk) (source target : Path) :
    Guarded Interrupted disk (convertFile convert source target)
      (disk.Provides source content) := by
  refine .bind (disk.settles_load source) (fun ⟨bytes, hr, _⟩ => ⟨bytes, hr⟩) fun bytes _ hr => ?_
  have hp := Disk.provides_of_read hr content
  refine .bind (Disk.settles_ofExcept (convert bytes)) (fun ha => (h bytes).mpr (hp.mp ha))
    fun product hproduct _ => ?_
  exact .of_failsBy ((Disk.failsBy_save target _).bind fun _ => .pure _)
    (hp.mpr ((h bytes).mp hproduct))

theorem exists_encode_iff {bytes : ByteArray} :
    (∃ product, Conversion.encode bytes = .ok product) ↔ (Content.tree 0).Accepts bytes := by
  simp only [Conversion.encode, Node.bind_eq_ok_iff, Content.Accepts]
  constructor
  · rintro ⟨_, tree, hl, sequence, he, -⟩
    exact ⟨tree, sequence, hl, he⟩
  · rintro ⟨tree, sequence, hl, he⟩
    exact ⟨_, tree, hl, sequence, he, rfl⟩

theorem exists_decode_iff {bytes : ByteArray} :
    (∃ product, Conversion.decode bytes = .ok product) ↔ Content.singleTree.Accepts bytes := by
  simp only [Conversion.decode, Node.bind_eq_ok_iff, Content.Accepts]
  constructor
  · rintro ⟨_, sequence, hl, tree, hd, -⟩
    exact ⟨sequence, tree, hl, hd⟩
  · rintro ⟨sequence, tree, hl, hd⟩
    exact ⟨_, sequence, hl, tree, hd, rfl⟩

theorem exists_hash_iff {hasher : Hasher} {bytes : ByteArray} :
    (∃ product, Conversion.hash hasher bytes = .ok product) ↔ Content.text.Accepts bytes := by
  rw [Content.Accepts, ← hasher.exists_hashFile_iff, Conversion.hash]
  cases hasher.hashFile bytes <;> simp [bind, Except.bind, pure, Except.pure]

theorem exists_unhash_iff {hasher : Hasher} {bytes : ByteArray} :
    (∃ product, Conversion.unhash hasher bytes = .ok product) ↔
      (Content.streams hasher.vocabulary).Accepts bytes := by
  rw [Content.Accepts, ← Hasher.exists_unhashFile_iff, Conversion.unhash]
  cases hasher.unhashFile bytes <;> simp [bind, Except.bind, pure, Except.pure]

theorem exists_vectorize_iff {columns : Columns} {bytes : ByteArray} :
    (∃ product, Conversion.vectorize columns bytes = .ok product) ↔
      Content.sequence.Accepts bytes := by
  rw [vectorize_eq_map, Content.Accepts]
  cases Sequence.load bytes <;> simp [Except.map]

/-! ## Tasks -/

/-- There is something at the root, and the patterns are good. -/
def Findable (disk : Disk) (root : Path) (pattern : String) : Prop :=
  (disk.kind? root).isSome ∧ ∃ patterns, Glob.parseList pattern = .ok patterns

theorem settles_discover (disk : Disk) (root : Path) (pattern : String) :
    disk.Settles (discover root pattern) (Findable disk root pattern)
      fun sources => Yields (discover root pattern) disk sources disk := by
  refine (disk.settles_kindOf root).bind (fun _ => trivial) fun kind _ hk => ?_
  rw [Findable, hk]
  cases kind with
  | none => exact .fails rfl (by rintro ⟨⟨⟩, -⟩)
  | some kind =>
    cases hp : Glob.parseList pattern with
    | error fault => exact .fails rfl (by rintro ⟨-, patterns, ⟨⟩⟩)
    | ok patterns =>
      refine .finds rfl ⟨rfl, patterns, rfl⟩ (yields_discover_iff.mpr ⟨rfl, ?_, patterns, hp, rfl⟩)
      rw [hk, Option.isSome_some]

/-- What is made with a hasher is made with that of the vocabulary. -/
theorem exists_hasher_of_map {make : Hasher → Conversion} {vocabulary : Vocabulary}
    (h : (Hasher.ofVocabulary vocabulary).map make = .ok convert) :
    ∃ hasher : Hasher, hasher.vocabulary = vocabulary ∧ make hasher = convert := by
  cases hv : Hasher.ofVocabulary vocabulary with
  | error e =>
    rw [hv] at h
    cases h
  | ok hasher =>
    rw [hv] at h
    exact ⟨hasher, Hasher.ofVocabulary_eq_ok_iff.mp hv, Except.ok.inj h⟩

namespace Task

/-- What a batch reads its files as. -/
def content : Task → Content
  | encode => .tree 0
  | decode => .singleTree
  | hash _ => .text
  | unhash vocabulary => .streams vocabulary
  | vectorize _ => .sequence

/-- What a batch is given is of use to it: its vocabulary, if it has one, has an inverse. -/
def Usable : Task → Prop
  | hash vocabulary | unhash vocabulary => vocabulary.Gapless
  | encode | decode | vectorize _ => True

/-- A batch makes something of a file just if the file is what it is read as. -/
theorem exists_product_iff {found : List Sequence} (h : task.conversion found = .ok convert)
    (bytes : ByteArray) :
    (∃ product, convert bytes = .ok product) ↔ task.content.Accepts bytes := by
  cases task with
  | encode =>
    cases h
    exact exists_encode_iff
  | decode =>
    cases h
    exact exists_decode_iff
  | hash vocabulary =>
    obtain ⟨hasher, -, rfl⟩ := exists_hasher_of_map h
    exact exists_hash_iff
  | unhash vocabulary =>
    obtain ⟨hasher, rfl, rfl⟩ := exists_hasher_of_map h
    exact exists_unhash_iff
  | vectorize existing =>
    cases h
    exact exists_vectorize_iff

end Task

/-- A stage writes nothing unless files can be found. -/
theorem guarded_run (stage : Stage) (convert : Conversion) (disk : Disk) (input output : Path)
    (options : Options) :
    Guarded Interrupted disk (run stage convert input output options)
      (Findable disk input options.pattern) := by
  rw [run]
  refine .bind (settles_discover disk input options.pattern) id fun sources hf _ => ?_
  refine .of_failsBy ((Disk.failsBy_ensureDirectory output).bind fun _ => ?_) hf
  refine (Disk.FailsBy.lift _).bind fun entries => ?_
  split
  · exact (Disk.failsBy_overwrite _ _).bind fun _ => .pure _
  · exact .pure _

/-- A stage with a hasher writes nothing unless the vocabulary has one and files can be
found. -/
theorem guarded_hasher (stage : Stage) (make : Hasher → Conversion) (vocabulary : Vocabulary)
    (disk : Disk) (input output : Path) (options : Options) :
    Guarded Interrupted disk (do
        let hasher ← ofExcept (Hasher.ofVocabulary vocabulary)
        run stage (make hasher) input output options)
      (vocabulary.Gapless ∧ Findable disk input options.pattern) := by
  refine .bind (Disk.settles_ofExcept _) (fun h => Hasher.exists_ofVocabulary_iff.mpr h.1) fun hasher hv _ => ?_
  exact (guarded_run stage (make hasher) disk input output options).congr
    ⟨fun hf => ⟨Hasher.exists_ofVocabulary_iff.mp hv, hf⟩, And.right⟩

/-- A batch of vectors writes nothing unless files can be found. -/
theorem guarded_vectorize (existing : Columns) (disk : Disk) (input output : Path)
    (options : Options) :
    Guarded Interrupted disk (Batch.vectorize existing input output options)
      (Findable disk input options.pattern) := by
  rw [Batch.vectorize]
  refine .bind (settles_discover disk input options.pattern) id fun sources hf _ => ?_
  -- the first pass over the files only reads them
  have hobserve : disk.run (ExceptT.lift (sources.foldlM observeSource existing) :
      ExceptT Error (StateM Disk) Columns) =
        (.ok ((sequences disk sources).foldl Columns.observe existing), disk) := by
    rw [Disk.run_lift, perform_observeSources]
  have hsettles : disk.Settles (ExceptT.lift (sources.foldlM observeSource existing) :
      ExceptT Error (StateM Disk) Columns) (Findable disk input options.pattern) fun _ => True :=
    .finds hobserve hf trivial
  refine .bind hsettles id fun columns _ _ => ?_
  refine (guarded_run .vectorize _ disk input output options).andThen fun report => ?_
  exact (Disk.failsBy_save _ _).bind fun _ => .pure _

/-- A batch writes nothing unless it can use what it is given and can find files. -/
theorem guarded_task (task : Task) (disk : Disk) (input output : Path) (options : Options) :
    Guarded Interrupted disk (task.run input output options)
      (task.Usable ∧ Findable disk input options.pattern) := by
  cases task with
  | encode =>
    exact (guarded_run .encode .encode disk input output options).congr (true_and _).to_iff.symm
  | decode =>
    exact (guarded_run .decode .decode disk input output options).congr (true_and _).to_iff.symm
  | hash vocabulary => exact guarded_hasher .hash .hash vocabulary disk input output options
  | unhash vocabulary => exact guarded_hasher .unhash .unhash vocabulary disk input output options
  | vectorize existing =>
    refine Guarded.congr (.andThen (guarded_vectorize existing disk input output options) ?_)
      ⟨fun hf => ⟨trivial, hf⟩, And.right⟩
    exact fun _ => .pure _

/-! ## Files of a batch -/

/-- A file whose turn comes, and that is not what it is read as, fails and leaves the disk
as it is. Otherwise it fails by a fault in writing alone. -/
def Passage.Traceless (task : Task)
    (passage : Passage task.stage convert input output options disk) : Prop :=
  ∀ before source outcome after, passage.steps = before ++ (source, outcome) :: after →
    ∃ turn next, Converts convert (task.target output options) passage.opened before turn ∧
      turn.run (convertFile convert source.path (task.target output options source)) =
        (outcome, next) ∧
      Converts convert (task.target output options) next after passage.converted ∧
      (¬turn.Provides source.path task.content → (∃ e, outcome = .error e) ∧ next = turn) ∧
      (turn.Provides source.path task.content → ∀ e, outcome = .error e → Interrupted e next)

theorem Passage.traceless {found : List Sequence}
    (passage : Passage task.stage convert input output options disk)
    (hc : task.conversion found = .ok convert) : passage.Traceless task := by
  intro before source outcome after hs
  have hconverts := passage.converts
  rw [hs] at hconverts
  obtain ⟨turn, hb, ha⟩ := hconverts.split
  cases ha with
  | @cons _ next _ _ _ _ hrun hrest =>
    obtain ⟨hunfit, hfit⟩ := (guarded_convertFile (task.exists_product_iff hc) turn source.path
      (task.target output options source)).outcome
    refine ⟨turn, next, hb, hrun, hrest, fun hn => ?_, fun hp e he => ?_⟩
    · obtain ⟨e, hfails⟩ := hunfit hn
      obtain ⟨rfl, rfl⟩ := Prod.mk.inj (hrun.symm.trans hfails)
      exact ⟨⟨e, rfl⟩, rfl⟩
    · subst he
      exact hfit hp e next hrun

theorem Task.exists_conversion (hu : task.Usable) (found : List Sequence) :
    ∃ convert, task.conversion found = .ok convert := by
  cases task with
  | encode | decode | vectorize existing => exact ⟨_, rfl⟩
  | hash vocabulary | unhash vocabulary =>
    obtain ⟨hasher, hv⟩ := Hasher.exists_ofVocabulary_iff.mpr hu
    exact ⟨_, by rw [conversion, hv]; rfl⟩

/-- How a batch ends that can use what it is given and look for files: its output directory
cannot be made, or it takes the files one by one, without a trace of those that are not what
they are read as, and then a fault in writing alone keeps it from telling of them all. -/
inductive Task.Passes (task : Task) (input output : Path) (options : Options)
    (disk disk' : Disk) : Except Error Report → Prop
  | shut {e : Error} (h : disk.run (Files.ensureDirectory output) = (.error e, disk')) :
    Passes task input output options disk disk' (.error e)
  | through {convert : Conversion} {outcome : Except Error Report}
    (passage : Passage task.stage convert input output options disk)
    (hc : task.conversion (sequences disk (passage.steps.map (·.1))) = .ok convert)
    (ht : passage.Traceless task)
    (ho : outcome = .ok (.ofEntries passage.entries) ∨
      ∃ e, outcome = .error e ∧ Interrupted e disk') :
    Passes task input output options disk disk' outcome

theorem Task.passes {disk' : Disk} {outcome : Except Error Report} (hu : task.Usable)
    (hf : Findable disk input options.pattern)
    (h : disk.run (task.run input output options) = (outcome, disk')) :
    task.Passes input output options disk disk' outcome := by
  cases Task.ended h with
  | through course hc => exact .through course.toPassage hc (course.traceless hc) (.inl rfl)
  | @stopped e hstop =>
    cases hstop with
    | refused hr =>
      obtain ⟨convert, hc⟩ := task.exists_conversion hu []
      rw [hr] at hc
      cases hc
    | lost hl =>
      cases settles_discover disk input options.pattern with
      | fails _ hn => exact absurd hf hn
      | finds hfinds _ _ =>
        rw [hl] at hfinds
        cases hfinds
    | shut ho => exact .shut ho
    | unlisted passage hc hw =>
      exact .through passage hc (passage.traceless hc) (.inr ⟨e, rfl, .file hw⟩)
    | unsaved _ course hc hw =>
      refine .through course.toPassage hc (course.traceless hc) (.inr ⟨e, rfl, ?_⟩)
      exact Disk.failsBy_save _ _ _ _ _ hw

end Batch

end TreeSeq
