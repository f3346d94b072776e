import TreeSeq.Proofs.Batch.Task
import TreeSeq.Proofs.Manifest

/-!
# What the manifest of a batch tells

A batch that goes through finds each file below its root that the patterns select, once
and in order (`mem_discover_iff`, `nodup_paths`). Its manifest, read back, has an entry for
each of them, which tells what came of converting it, and its report counts the entries
(`Recorded`). Nothing else than its own files stops it (`recorded_of_run`).
-/

namespace TreeSeq.Batch

open Disk (Yields)

variable {disk disk' : Disk} {task : Task} {input output root : Path} {options : Options}
  {pattern : String} {source : Source} {sources : List Source} {outcome : Except Error Report}

/-! ## The files that are found -/

/-- A file is found just if it is at or below the root and the patterns select it. -/
theorem mem_discover_iff (hw : disk.WellFormed)
    (h : Yields (discover root pattern) disk sources disk') :
    source ∈ sources ↔ ∃ names bytes,
      disk.entry? (root.location ++ names) = some (.file bytes) ∧
        source = .ofNames root names ∧
        ∀ patterns, Glob.parseList pattern = .ok patterns → Glob.selects patterns source.names := by
  obtain ⟨-, hk, patterns, hp, rfl⟩ := yields_discover_iff.mp h
  obtain ⟨-, hf, -⟩ := Disk.kind?_isSome_iff.mp hk
  rw [List.mem_mergeSort, List.mem_filter, List.mem_map]
  constructor
  · rintro ⟨⟨names, hn, rfl⟩, hs⟩
    obtain ⟨bytes, hb⟩ := (hw.mem_filesBelow_iff hf).mp hn
    refine ⟨names, bytes, hb, rfl, fun others ho => ?_⟩
    rw [hp] at ho
    cases ho
    exact hs
  · rintro ⟨names, bytes, hb, rfl, hs⟩
    exact ⟨⟨names, (hw.mem_filesBelow_iff hf).mpr ⟨bytes, hb⟩, rfl⟩, hs patterns hp⟩

/-- The path of a file that is found leads to it. -/
theorem location_of_mem_discover (hw : disk.WellFormed)
    (h : Yields (discover root pattern) disk sources disk') (hm : source ∈ sources) :
    ∃ names bytes, source = .ofNames root names ∧ source.path.location = root.location ++ names ∧
      disk.entry? source.path.location = some (.file bytes) := by
  obtain ⟨ht, hf, -⟩ := Disk.kind?_isSome_iff.mp (yields_discover_iff.mp h).2.1
  obtain ⟨names, bytes, hb, rfl, -⟩ := (mem_discover_iff hw h).mp hm
  obtain ⟨-, hl⟩ := hw.follow_joinAll ht hf hb
  have hp : (root.joinAll names).location = root.location ++ names := Disk.walk_of_follow hl
  rw [Source.path_ofNames]
  exact ⟨names, bytes, rfl, hp, hp ▸ hb⟩

/-- No path stands twice. -/
theorem nodup_paths (hw : disk.WellFormed)
    (h : Yields (discover root pattern) disk sources disk') :
    (sources.map (·.path.text)).Nodup := by
  rw [List.Nodup, List.pairwise_map]
  refine (pairwise_of_discover hw h).imp_of_mem fun {a b} ha hb hlt htext => ?_
  obtain ⟨names, -, rfl, hl, -⟩ := location_of_mem_discover hw h ha
  obtain ⟨others, -, rfl, hl', -⟩ := location_of_mem_discover hw h hb
  have hnames : names = others := by
    rw [Path.text_injective htext, hl'] at hl
    exact (List.append_cancel_left hl).symm
  rw [hnames] at hlt
  exact lt_irrefl _ hlt

/-! ## Records -/

/-- What a batch with a manifest tells in the end of the files that it took, step by
step. -/
structure Recorded (task : Task) (input output : Path) (options : Options) (disk disk' : Disk)
    (steps : List Step) (report : Report) : Prop where
  /-- They are the files at or below the root that the patterns select. -/
  complete : ∀ source, source ∈ steps.map (·.1) ↔ ∃ names bytes,
    disk.entry? (input.location ++ names) = some (.file bytes) ∧ source = .ofNames input names ∧
      ∀ patterns, Glob.parseList options.pattern = .ok patterns →
        Glob.selects patterns source.names
  ascending : (steps.map (·.1)).Pairwise fun a b => a.names < b.names
  distinct : (steps.map (·.1.path.text)).Nodup
  /-- They were converted one after the other, in the output directory. -/
  converted : ∃ convert opened last,
    task.conversion (sequences disk (steps.map (·.1))) = .ok convert ∧
    Yields (Files.ensureDirectory output) disk () opened ∧
    Converts convert (stageTarget task.stage output options) opened steps last
  /-- The manifest tells what came of each. -/
  listed : (∀ step ∈ steps, ∀ items, step.2 = .ok items → items < UInt64.size) →
    ∃ bytes, disk'.read (output.join manifestName) = .ok bytes ∧
      Manifest.load bytes = .ok (steps.map (Step.entry task.stage
        (stageTarget task.stage output options)))
  /-- The report counts those that were converted, and gives the reasons of the others. -/
  reported : report = ⟨steps.countP (·.2.isOk), steps.filterMap Step.failure?⟩
  counted : report.processed + report.failed.length = steps.length

theorem storable_entry {stage : Stage} {target : Source → Path} {step : Step}
    (h : ∀ items, step.2 = .ok items → items < UInt64.size) :
    (step.entry stage target).Storable := by
  obtain ⟨source, e | items⟩ := step
  · exact Nat.zero_lt_succ _
  · exact h items rfl

/-- A batch on a well-formed disk stops, but not at a file that it converts, or its
manifest and its report tell what came of each file. -/
theorem recorded_of_run (hw : disk.WellFormed) (hm : options.manifest = true)
    (h : disk.run (task.run input output options) = (outcome, disk')) :
    (∃ e, outcome = .error e ∧ Stopped task input output options disk disk' e) ∨
      ∃ steps report, outcome = .ok report ∧
        Recorded task input output options disk disk' steps report := by
  cases Task.ended h with
  | stopped hstop => exact .inl ⟨_, rfl, hstop⟩
  | @through convert course hconvert =>
    refine .inr ⟨course.steps, course.report, rfl, ?_⟩
    constructor
    case complete => exact fun source => mem_discover_iff hw course.found
    case ascending => exact pairwise_of_discover hw course.found
    case distinct =>
      have hnodup := nodup_paths hw course.found
      rwa [List.map_map] at hnodup
    case converted => exact ⟨convert, _, _, hconvert, course.opens, course.converts⟩
    case listed =>
      refine fun hitems => ⟨_, course.lists hm, Manifest.load_of_save fun entry he => ?_⟩
      obtain ⟨step, hs, rfl⟩ := List.mem_map.mp he
      exact storable_entry (hitems step hs)
    case reported => exact Report.ofEntries_steps _ _ _
    case counted =>
      rw [Course.report, Report.processed_add_failed, Passage.entries, List.length_map]

theorem recorded_of_run_pair :
    ∃ steps report disk',
      pair.run (Task.run (.vectorize pairColumns) ⟨"in"⟩ ⟨"out"⟩ pairOptions) =
          (.ok report, disk') ∧
        Recorded (.vectorize pairColumns) ⟨"in"⟩ ⟨"out"⟩ pairOptions pair disk' steps report := by
  obtain ⟨outcome, disk', h⟩ :=
    pair.exists_run (Task.run (.vectorize pairColumns) ⟨"in"⟩ ⟨"out"⟩ pairOptions)
  rcases recorded_of_run wellFormed_pair rfl h with ⟨e, rfl, -⟩ | ⟨steps, report, rfl, hrecorded⟩
  · have hfailed := failed_pair
    rw [Task.run, Disk.run_bind] at h
    obtain ⟨made, last, hv⟩ := pair.exists_run (vectorize pairColumns ⟨"in"⟩ ⟨"out"⟩ pairOptions)
    rw [hv] at h hfailed
    cases made with
    | error found => cases hfailed
    | ok found => cases h
  · exact ⟨steps, report, disk', h, hrecorded⟩

end TreeSeq.Batch
