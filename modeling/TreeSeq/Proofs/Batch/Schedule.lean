import TreeSeq.Proofs.Batch.Manifest
import TreeSeq.Proofs.Disk.Agreement

/-!
# Batches on one thread

A scheduler may bring the files of a batch into another order, but a single thread takes them
as they were found. On a well-formed disk a file is found once, so what is told of the files
is collected in the order in which it was told (`perform_convertInOrder`), and a batch on one
thread is run as if there were no scheduler (`Task.run_runOn`).
-/

namespace TreeSeq.Batch

variable {disk : Disk} {arrange : List Source → List Source} {stage : Stage}
  {convert : Conversion} {input output : Path} {options : Options} {suffix : String}
  {sources : List Source}

/-- Files that are converted as they were found, each of them once, are told of as they
were converted. -/
theorem perform_convertInOrder (hd : sources.Nodup) :
    disk.perform (convertInOrder stage convert output suffix sources sources) =
      disk.perform (sources.mapM (convertSource stage convert output suffix)) := by
  have ht (source : Source) : source.target output suffix = source.target output suffix := rfl
  obtain ⟨steps, disk', rfl, -, hp⟩ := perform_convertSources stage convert disk sources ht
  -- what is told of the files, under the files
  have hnames : Fields.names (steps.map fun step =>
      (step.1, Step.entry stage (·.target output suffix) step)) = steps.map (·.1) := by
    rw [Fields.names, List.map_map]
    rfl
  rw [← hnames] at hd
  have hfound := Fields.filterMap_get?_names hd
  rw [hnames, List.map_map] at hfound
  rw [convertInOrder, Disk.perform_bind, hp, List.zip_map']
  exact congrArg (·, disk') hfound

/-- A stage that leaves the files in the order in which it finds them is run as without an
order. -/
theorem run_runInOrder (hw : disk.WellFormed) (ha : ∀ sources, arrange sources = sources) :
    disk.run (runInOrder arrange stage convert input output options) =
      disk.run (run stage convert input output options) := by
  rw [runInOrder, run, Disk.run_bind, Disk.run_bind]
  obtain ⟨found, between, hf⟩ := disk.exists_run (discover input options.pattern)
  rw [hf]
  cases found with
  | error e => rfl
  | ok sources =>
    have hd : sources.Nodup := List.Nodup.of_map _ (nodup_paths hw hf)
    simp only [Disk.run_bind, Disk.run_lift, ha, perform_convertInOrder hd]

namespace Task

/-- What a batch needs for its stage is found without a trace. Either it ends there, however
its files would be converted, or it goes on to its stage, and from there on it sees no more
than what stands on the disk. -/
theorem run_runBy_cases (disk : Disk) (task : Task) (input output : Path) (options : Options) :
    (∃ ended, ∀ runStage, disk.run (task.runBy runStage input output options) = ended) ∨
      ∃ convert, ∃ next : Report → ExceptT Error (StateM Disk) Report,
        (∀ report, Disk.Steady (next report)) ∧ ∀ runStage,
          disk.run (task.runBy runStage input output options) =
            disk.run (runStage task.stage convert >>= next) := by
  cases task with
  | encode => exact .inr ⟨.encode, pure, .pure, fun _ => by rw [bind_pure]; rfl⟩
  | decode => exact .inr ⟨.decode, pure, .pure, fun _ => by rw [bind_pure]; rfl⟩
  | hash vocabulary =>
    simp only [runBy, Disk.run_bind disk (ofExcept _), Disk.run_ofExcept]
    cases Hasher.ofVocabulary vocabulary with
    | error e => exact .inl ⟨_, fun _ => rfl⟩
    | ok hasher => exact .inr ⟨.hash hasher, pure, .pure, fun _ => by rw [bind_pure]; rfl⟩
  | unhash vocabulary =>
    simp only [runBy, Disk.run_bind disk (ofExcept _), Disk.run_ofExcept]
    cases Hasher.ofVocabulary vocabulary with
    | error e => exact .inl ⟨_, fun _ => rfl⟩
    | ok hasher => exact .inr ⟨.unhash hasher, pure, .pure, fun _ => by rw [bind_pure]; rfl⟩
  | vectorize existing =>
    obtain ⟨found, between, hf⟩ := disk.exists_run (discover input options.pattern)
    simp only [runBy, Disk.run_bind disk (discover _ _), hf]
    cases found with
    | error e => exact .inl ⟨_, fun _ => rfl⟩
    | ok sources =>
      obtain rfl : between = disk := (yields_discover_iff.mp hf).1
      simp only [Disk.run_bind between (ExceptT.lift _), Disk.run_lift, perform_observeSources]
      exact .inr ⟨_, _, fun report =>
        (Disk.steady_save _ _).bind fun _ => .pure report, fun _ => rfl⟩

theorem run_runBy (disk : Disk) (task : Task) (input output : Path) (options : Options) :
    disk.run (task.runBy (fun stage convert => Batch.run stage convert input output options)
      input output options) = disk.run (task.run input output options) := by
  cases task with
  | vectorize existing =>
    simp only [runBy, run, Batch.vectorize, bind_assoc, pure_bind]
  | _ => rfl

/-- On one thread a batch is run as if there were no scheduler. -/
theorem run_runOn (scheduler : Scheduler) (task : Task) (input output : Path)
    (hw : disk.WellFormed) (hone : options.threads = 1) :
    disk.run (task.runOn scheduler input output options) =
      disk.run (task.run input output options) := by
  have hstage (stage : Stage) (convert : Conversion) :
      disk.run (runInOrder (scheduler.arrange options.threads) stage convert input output options) =
        disk.run (Batch.run stage convert input output options) :=
    run_runInOrder hw (hone ▸ scheduler.alone)
  rw [← run_runBy, runOn]
  rcases run_runBy_cases disk task input output options with ⟨ended, h⟩ | ⟨convert, next, -, h⟩
  · rw [h, h]
  · rw [h, h, Disk.run_bind, Disk.run_bind, hstage]

end Task

end TreeSeq.Batch
