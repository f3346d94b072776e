import TreeSeq.Batch.Schedule
import TreeSeq.Proofs.Batch.Steps
import TreeSeq.Proofs.Batch.Vectors

/-!
# The course of a batch

All batches that make a file out of each file of a directory take the same course
(`Course`): the files are found, the output directory is made, the files are converted one
after the other, and the batch writes its own files. What stops a batch on its course is
never one of the files that it converts (`Stopped`, `Task.ended`).
-/

namespace TreeSeq.Batch

open Disk (Yields)

variable {disk disk' last : Disk} {convert : Conversion} {input output : Path}
  {options : Options} {outcome : Except Error Report} {own : List (List String)}

/-- The path of what a stage makes of a file. -/
def stageTarget (stage : Stage) (output : Path) (options : Options) (source : Source) : Path :=
  source.target output (options.suffix.getD stage.suffix)

/-! ## Tasks -/

namespace Task

/-- What a batch makes of a file, these being the sequences among the files. -/
def conversion (found : List Sequence) : Task → Except Error Conversion
  | encode => .ok .encode
  | decode => .ok .decode
  | hash vocabulary => (Hasher.ofVocabulary vocabulary).map .hash
  | unhash vocabulary => (Hasher.ofVocabulary vocabulary).map .unhash
  | vectorize existing => .ok (.vectorize (found.foldl Columns.observe existing))

/-- The path of what a batch makes of a file. -/
def target (task : Task) : Path → Options → Source → Path :=
  stageTarget task.stage

/-- Where a batch writes its own files: the manifest if it is wanted, and the columns of
vectors. -/
def places (output : Path) (options : Options) : Task → List (List String)
  | vectorize _ => manifestPlace output options ++ [(output.join featuresName).location]
  | _ => manifestPlace output options

end Task

/-! ## Courses -/

/-- How a batch comes as far as that all files are converted. -/
structure Passage (stage : Stage) (convert : Conversion) (input output : Path)
    (options : Options) (disk : Disk) where
  steps : List Step
  /-- The disk once there is the output directory. -/
  opened : Disk
  /-- The disk once all files are converted. -/
  converted : Disk
  found : Yields (discover input options.pattern) disk (steps.map (·.1)) disk
  opens : Yields (Files.ensureDirectory output) disk () opened
  converts : Converts convert (stageTarget stage output options) opened steps converted

/-- The entries of the manifest. -/
def Passage.entries {stage : Stage} (passage : Passage stage convert input output options disk) :
    List Manifest.Entry :=
  passage.steps.map (Step.entry stage (stageTarget stage output options))

/-- How a batch goes through, its own files being written at `own`. -/
structure Course (stage : Stage) (convert : Conversion) (input output : Path)
    (options : Options) (own : List (List String)) (disk disk' : Disk) extends
    Passage stage convert input output options disk where
  closes : converted.Changes disk' (Path.entered [] output.parts) own
  wellFormed : converted.WellFormed → disk'.WellFormed
  lists : options.manifest = true →
    disk'.read (output.join manifestName) = .ok (Manifest.save toPassage.entries).toUTF8

/-- The report of a batch that went through. -/
def Course.report {stage : Stage}
    (course : Course stage convert input output options own disk disk') : Report :=
  .ofEntries course.entries

theorem isName_manifestName : Path.IsName manifestName := by
  decide

theorem isName_featuresName : Path.IsName featuresName := by
  decide

/-- Columns are saved when a course is through; the manifest is another file. -/
def Course.save {stage : Stage} {text : String}
    (course : Course stage convert input output options own disk disk')
    (h : Yields (Files.save (output.join featuresName) text) disk' () last) :
    Course stage convert input output options (own ++ [(output.join featuresName).location])
      disk last where
  toPassage := course.toPassage
  closes := by
    have hc := Disk.changes_of_save h
    rw [Path.way_join output isName_featuresName] at hc
    exact (course.closes.trans hc).mono (by simp) (List.Subset.refl _)
  wellFormed hw := (course.wellFormed hw).of_save h
  lists hm := by
    refine (Disk.keeps_of_save h).read (course.lists hm) fun hplace => ?_
    rw [List.mem_singleton, Path.location_join output isName_manifestName,
      Path.location_join output isName_featuresName, List.append_cancel_left_eq] at hplace
    exact absurd hplace (by decide)

/-! ## How batches end -/

/-- Why a batch stops: what it needs is no good, no files can be found, the output
directory cannot be made, or one of its own files cannot be written when all others are
converted. -/
inductive Stopped (task : Task) (input output : Path) (options : Options) (disk : Disk) :
    Disk → Error → Prop
  | refused {e : Error} (h : ∀ found, task.conversion found = .error e) :
    Stopped task input output options disk disk e
  | lost {disk' : Disk} {e : Error}
    (h : disk.run (discover input options.pattern) = (.error e, disk')) :
    Stopped task input output options disk disk' e
  | shut {disk' : Disk} {e : Error}
    (h : disk.run (Files.ensureDirectory output) = (.error e, disk')) :
    Stopped task input output options disk disk' e
  | unlisted {convert : Conversion} {disk' : Disk} {e : Error}
    (passage : Passage task.stage convert input output options disk)
    (hc : task.conversion (sequences disk (passage.steps.map (·.1))) = .ok convert)
    (h : passage.converted.run (Files.overwrite (output.join manifestName)
      (Manifest.save passage.entries)) = (.error e, disk')) :
    Stopped task input output options disk disk' e
  | unsaved {existing columns : Columns} {convert : Conversion} {between disk' : Disk} {e : Error}
    (hv : task = .vectorize existing)
    (course : Course task.stage convert input output options (manifestPlace output options)
      disk between)
    (hc : task.conversion (sequences disk (course.steps.map (·.1))) = .ok convert)
    (h : between.run (Files.save (output.join featuresName) columns.save) = (.error e, disk')) :
    Stopped task input output options disk disk' e

/-- A stage goes through, or it stops, but not at a file that it converts. -/
theorem run_stage_cases (task : Task)
    (hconvert : ∀ sources, Yields (discover input options.pattern) disk sources disk →
      task.conversion (sequences disk sources) = .ok convert)
    (h : disk.run (run task.stage convert input output options) = (outcome, disk')) :
    (∃ e, outcome = .error e ∧ Stopped task input output options disk disk' e) ∨
      ∃ course : Course task.stage convert input output options (manifestPlace output options)
        disk disk', outcome = .ok course.report := by
  rw [run] at h
  obtain ⟨e, hf, rfl⟩ | ⟨sources, found, hf, hrest⟩ := Disk.run_bind_cases h
  · exact .inl ⟨e, rfl, .lost hf⟩
  obtain rfl : found = disk := (yields_discover_iff.mp hf).1
  clear h
  obtain ⟨e, ho, rfl⟩ | ⟨_, opened, ho, h⟩ := Disk.run_bind_cases hrest
  · exact .inl ⟨e, rfl, .shut ho⟩
  have ht (source : Source) : source.target output (options.suffix.getD task.stage.suffix) =
      stageTarget task.stage output options source := rfl
  obtain ⟨steps, converted, rfl, hc, hp⟩ :=
    perform_convertSources task.stage convert opened sources ht
  simp only [Disk.run_bind opened, Disk.run_lift, hp] at h
  cases hm : options.manifest with
  | false =>
    rw [hm, if_neg Bool.false_ne_true] at h
    cases h
    refine .inr ⟨⟨⟨steps, opened, disk', hf, ho, hc⟩, .refl _ _ _, id, fun hwanted => ?_⟩, rfl⟩
    rw [hm] at hwanted
    cases hwanted
  | true =>
    rw [hm, if_pos rfl] at h
    obtain ⟨e, hw, rfl⟩ | ⟨_, last, hw, h⟩ := Disk.run_bind_cases h
    · exact .inl ⟨e, rfl, .unlisted ⟨steps, opened, converted, hf, ho, hc⟩ (hconvert _ hf) hw⟩
    · cases h
      refine .inr ⟨⟨⟨steps, opened, converted, hf, ho, hc⟩, ?_, fun hwf => hwf.of_overwrite hw,
        fun _ => Disk.read_of_overwrite hw⟩, rfl⟩
      rw [manifestPlace, hm, if_pos rfl]
      exact (Disk.changes_of_overwrite hw).mono (List.nil_subset _) (List.Subset.refl _)

namespace Task

/-- A batch stops, or goes through and makes its report. -/
inductive Ended (task : Task) (input output : Path) (options : Options) (disk disk' : Disk) :
    Except Error Report → Prop
  | stopped {e : Error} (h : Stopped task input output options disk disk' e) :
    Ended task input output options disk disk' (.error e)
  | through {convert : Conversion}
    (course : Course task.stage convert input output options (task.places output options) disk
      disk')
    (h : task.conversion (sequences disk (course.steps.map (·.1))) = .ok convert) :
    Ended task input output options disk disk' (.ok course.report)

variable {task : Task}

theorem ended_of_stage (hp : task.places output options = manifestPlace output options)
    (hc : ∀ found, task.conversion found = .ok convert)
    (h : disk.run (Batch.run task.stage convert input output options) = (outcome, disk')) :
    task.Ended input output options disk disk' outcome := by
  have hcases := run_stage_cases task (fun _ _ => hc _) h
  rw [← hp] at hcases
  obtain ⟨e, rfl, hstop⟩ | ⟨course, rfl⟩ := hcases
  · exact .stopped hstop
  · exact .through course (hc _)

theorem ended_of_hasher (make : Hasher → Conversion) {vocabulary : Vocabulary}
    (hp : task.places output options = manifestPlace output options)
    (hc : ∀ found, task.conversion found = (Hasher.ofVocabulary vocabulary).map make)
    (h : disk.run (do
        let hasher ← ofExcept (Hasher.ofVocabulary vocabulary)
        Batch.run task.stage (make hasher) input output options) = (outcome, disk')) :
    task.Ended input output options disk disk' outcome := by
  rw [Disk.run_bind, Disk.run_ofExcept] at h
  cases hv : Hasher.ofVocabulary vocabulary with
  | error e =>
    rw [hv] at h
    cases h
    exact .stopped (.refused fun found => by rw [hc, hv]; rfl)
  | ok hasher =>
    rw [hv] at h
    exact ended_of_stage hp (fun found => by rw [hc, hv]; rfl) h

theorem ended_of_vectorize {existing : Columns} {made : Except Error (Report × Columns)}
    (h : disk.run (Batch.vectorize existing input output options) = (made, disk')) :
    (vectorize existing).Ended input output options disk disk' (made.map (·.1)) := by
  rw [Batch.vectorize] at h
  obtain ⟨e, hf, rfl⟩ | ⟨sources, first, hf, hrest⟩ := Disk.run_bind_cases h
  · exact .stopped (.lost hf)
  obtain rfl : first = disk := (yields_discover_iff.mp hf).1
  clear h
  rw [Disk.run_bind, Disk.run_lift, perform_observeSources] at hrest
  simp only at hrest
  -- nothing is written between the two times that files are found
  have hconvert : ∀ found, Yields (discover input options.pattern) first found first →
      (vectorize existing).conversion (sequences first found) =
        .ok (.vectorize ((sequences first sources).foldl Columns.observe existing)) := by
    intro found hfound
    obtain rfl : sources = found := Except.ok.inj (Prod.mk.inj (hf.symm.trans hfound)).1
    rfl
  obtain ⟨e, hs, rfl⟩ | ⟨report, between, hs, hsave⟩ := Disk.run_bind_cases hrest
  · obtain ⟨e, he, hstop⟩ | ⟨course, hcourse⟩ := run_stage_cases (.vectorize existing) hconvert hs
    · cases he
      exact .stopped hstop
    · cases hcourse
  obtain ⟨e, he, hstop⟩ | ⟨course, hcourse⟩ := run_stage_cases (.vectorize existing) hconvert hs
  · cases he
  clear hrest
  obtain ⟨e, hw, rfl⟩ | ⟨_, _, hw, hend⟩ := Disk.run_bind_cases hsave
  · exact .stopped (.unsaved rfl course (hconvert _ course.found) hw)
  cases hend
  cases hcourse
  exact .through (course.save hw) (hconvert _ course.found)

/-- A batch goes through, or it stops, but not at a file that it converts. -/
theorem ended (h : disk.run (task.run input output options) = (outcome, disk')) :
    task.Ended input output options disk disk' outcome := by
  cases task with
  | encode => exact ended_of_stage rfl (fun _ => rfl) h
  | decode => exact ended_of_stage rfl (fun _ => rfl) h
  | hash vocabulary => exact ended_of_hasher .hash rfl (fun _ => rfl) h
  | unhash vocabulary => exact ended_of_hasher .unhash rfl (fun _ => rfl) h
  | vectorize existing =>
    rw [run, Disk.run_bind] at h
    obtain ⟨made, last, hv⟩ := disk.exists_run (Batch.vectorize existing input output options)
    rw [hv] at h
    have hended := ended_of_vectorize hv
    cases made <;> (cases h; exact hended)

end Task

end TreeSeq.Batch
