import TreeSeq.Proofs.Batch.Run
import TreeSeq.Proofs.Batch.Source
import TreeSeq.Proofs.CommandLine.Vectors
import TreeSeq.Proofs.Features.File

/-!
# Vectors of a directory

The files of a directory are read twice: for the columns (`perform_observeSources`), and
for the vectors over them. Nothing is written in between, and nothing is written where
there is something to read, so the second time finds what the first one found. The run
then leaves what `Vectorized` says (`vectorized_of_undisturbed`).
-/

namespace TreeSeq.Batch

open Disk (Yields)

variable {disk disk' : Disk} {input output : Path} {options : Options} {existing columns : Columns}
  {source : Source} {sources : List Source} {sequence : Sequence}

/-! ## The sequences of a directory -/

/-- The sequence that a file holds, or why there is none. -/
def Source.load (disk : Disk) (source : Source) : Except Error Sequence :=
  ((disk.read source.path).mapError .file).bind Sequence.load

theorem load_eq_of_read {bytes : ByteArray} (h : disk.read source.path = .ok bytes) :
    source.load disk = Sequence.load bytes := by
  rw [Source.load, h]
  rfl

/-- The sequences that files hold, in order. -/
def sequences (disk : Disk) (sources : List Source) : List Sequence :=
  sources.filterMap fun source => (source.load disk).toOption

theorem mem_sequences (hm : source ∈ sources) (h : source.load disk = .ok sequence) :
    sequence ∈ sequences disk sources :=
  List.mem_filterMap.mpr ⟨source, hm, by rw [h]; rfl⟩

/-- The one sequence, if one file alone holds one. -/
theorem sequences_of_filter (h : sources.filter (fun source => (source.load disk).isOk) = [source]) :
    ∃ sequence, source.load disk = .ok sequence ∧ sequences disk sources = [sequence] := by
  have hm : source ∈ sources.filter fun source => (source.load disk).isOk :=
    h ▸ List.mem_singleton_self source
  have hf : sequences disk sources =
      sequences disk (sources.filter fun source => (source.load disk).isOk) := by
    rw [sequences, sequences, List.filterMap_filter]
    refine List.filterMap_congr fun other _ => ?_
    cases other.load disk <;> rfl
  have hok := (List.mem_filter.mp hm).2
  cases hl : source.load disk with
  | error e =>
    rw [hl] at hok
    cases hok
  | ok sequence => exact ⟨sequence, rfl, by rw [hf, h, sequences]; simp [hl, Except.toOption]⟩

theorem perform_observeSource (disk : Disk) (columns : Columns) (source : Source) :
    disk.perform (observeSource columns source) =
      match source.load disk with
      | .ok sequence => (columns.observe sequence, disk)
      | .error _ => (columns, disk) := by
  have hr : disk.perform (Files.read source.path) = (disk.read source.path, disk) := rfl
  rw [observeSource, Disk.perform_bind, hr, Source.load]
  cases disk.read source.path with
  | error fault => rfl
  | ok bytes =>
    simp only [Except.mapError, Except.bind]
    cases Sequence.load bytes <;> rfl

/-- The first pass grows the columns by the sequences, and leaves the disk as it is. -/
theorem perform_observeSources (disk : Disk) (columns : Columns) (sources : List Source) :
    disk.perform (sources.foldlM observeSource columns) =
      ((sequences disk sources).foldl Columns.observe columns, disk) := by
  induction sources generalizing columns with
  | nil => rfl
  | cons source rest ih =>
    rw [List.foldlM_cons, Disk.perform_bind, perform_observeSource, sequences]
    cases hs : source.load disk with
    | ok sequence =>
      rw [List.filterMap_cons_some (by rw [hs]; rfl), List.foldl_cons]
      exact ih _
    | error e =>
      rw [List.filterMap_cons_none (by rw [hs]; rfl)]
      exact ih _

/-! ## What the second pass makes of a file -/

/-- What a file of vectors over these columns holds. -/
def vectorProduct (columns : Columns) (sequence : Sequence) : Product :=
  let lines := (columns.vectors sequence).map vectorText
  ⟨Text.joinLines lines, lines.length⟩

theorem vectorize_eq_map (columns : Columns) (bytes : ByteArray) :
    Conversion.vectorize columns bytes = (Sequence.load bytes).map (vectorProduct columns) := by
  rw [Conversion.vectorize]
  cases Sequence.load bytes <;> rfl

/-! ## The whole run -/

/-- Where the vectors of a file are written. -/
def vectorTarget (output : Path) (options : Options) (source : Source) : Path :=
  source.target output (options.suffix.getD Stage.vectorize.suffix)

/-- Where files are written: the vectors of those that hold sequences, the manifest if it
is wanted, and the columns. -/
def vectorPlaces (disk : Disk) (output : Path) (options : Options) (sources : List Source) :
    List (List String) :=
  written (Source.load disk) (vectorTarget output options) sources ++
    manifestPlace output options ++ [(output.join featuresName).location]

/-- No fault of a file operation stops the run, and none is told of a file. -/
def Undisturbed (outcome : Except Error (Report × Columns)) : Prop :=
  (∀ fault, outcome ≠ .error (.file fault)) ∧
    ∀ report columns, outcome = .ok (report, columns) → report.Undisturbed

/-- An error in a document is not told as a fault of a file operation. -/
theorem message_json_ne_file (found : Json.Fault) (fault : FileFault) :
    (Error.json found).message ≠ (Error.file fault).message := by
  have hj : "serde json error: ".toList = 's' :: "erde json error: ".toList := by decide +kernel
  have hf : "io error: ".toList = 'i' :: "o error: ".toList := by decide +kernel
  intro h
  have hl : ("serde json error: " ++ found.word).toList =
      ("io error: " ++ fault.message).toList := congrArg String.toList h
  rw [String.toList_append, String.toList_append, hj, hf] at hl
  exact absurd (List.cons.inj hl).1 (by decide)

/-- Files that hold no sequence do not disturb a run. -/
theorem undisturbed_ofResults (hr : ∀ source ∈ sources, ∃ bytes, disk.read source.path = .ok bytes) :
    (Report.ofResults (Source.load disk) sources).Undisturbed := by
  intro failure hm fault
  obtain ⟨source, hsource, hf⟩ := List.mem_filterMap.mp hm
  obtain ⟨bytes, hb⟩ := hr source hsource
  rw [load_eq_of_read hb, Sequence.load] at hf
  cases hd : (Json.Reader.list Record.reader).document (.ofBytes bytes) with
  | ok sequence => simp [hd] at hf
  | error found =>
    simp only [hd, Option.some.injEq] at hf
    subst hf
    exact message_json_ne_file found fault

/-- Made alone from a file that holds these bytes, by a command that goes on from the
existing columns, the vectors and the columns are those that these two files hold. -/
def SameAlone (disk' : Disk) (read : Except FileFault ByteArray) (existing : Columns)
    (vectors columns : Path) : Prop :=
  ∀ (there there' : Disk) (input output : Path) (features : Option Path)
    (outcome : Except CommandLine.Failure CommandLine.Told),
    there.read input = read → CommandLine.StartsFrom there features existing →
    (∀ path ∈ features, path.location ≠ output.location) →
    there.run (CommandLine.vectorize input output features false) = (outcome, there') →
    CommandLine.Undisturbed outcome →
    outcome.isOk ∧ there'.read output = disk'.read vectors ∧
      ∀ path ∈ features, there'.read path = disk'.read columns

/-- What the run leaves, `disk` being what there was before. -/
structure Vectorized (disk disk' : Disk) (output : Path) (options : Options) (existing : Columns)
    (sources : List Source) (report : Report) (columns : Columns) : Prop where
  /-- The files stand in the order of their names, each once. -/
  ascending : sources.Pairwise fun a b => a.names < b.names
  /-- Existing columns stay, and new ones follow in first-seen order. -/
  grown : columns.features = existing.features ++
    ((Columns.seen (sequences disk sources)).filter (· ∉ existing.features)).eraseDups
  /-- Files that hold no sequence are told to have failed, and they alone. -/
  told : report = .ofResults (Source.load disk) sources
  /-- Every other file has its vectors, a line for each record. -/
  vectors : ∀ source ∈ sources, ∀ sequence, source.load disk = .ok sequence →
    disk'.read (vectorTarget output options source) =
        .ok (columns.vectorFile sequence).toUTF8 ∧
      Text.lines (columns.vectorFile sequence) =
        sequence.map fun record => vectorText (columns.vector record)
  /-- A vector has a number for each column, and counts all features of its record. -/
  counted : ∀ sequence ∈ sequences disk sources, ∀ record ∈ sequence,
    (∀ feature ∈ record.features, feature ∈ columns.features) ∧
      (columns.vector record).length = columns.width ∧
      (columns.vector record).sum = record.features.length
  /-- The columns are saved, and loaded from where they are. -/
  saved : ∃ bytes, disk'.read (output.join featuresName) = .ok bytes ∧
    Columns.load bytes = .ok columns
  /-- Where one file alone holds a sequence, nothing else comes of making its vectors
  alone. -/
  alone : ∀ source, sources.filter (fun source => (source.load disk).isOk) = [source] →
    SameAlone disk' (disk.read source.path) existing (vectorTarget output options source)
      (output.join featuresName)

/-- A run that is not disturbed goes through, and leaves these files. -/
theorem files_of_undisturbed {outcome : Except Error (Report × Columns)}
    (hs : Yields (discover input options.pattern) disk sources disk)
    (hr : ∀ source ∈ sources, ∃ bytes, disk.read source.path = .ok bytes)
    (hd : (vectorPlaces disk output options sources).Nodup)
    (hi : ∀ source ∈ sources, source.path.location ∉ vectorPlaces disk output options sources)
    (h : disk.run (vectorize existing input output options) = (outcome, disk'))
    (hu : Undisturbed outcome)
    (hc : (sequences disk sources).foldl Columns.observe existing = columns) :
    outcome = .ok (.ofResults (Source.load disk) sources, columns) ∧
      (∀ source ∈ sources, ∀ sequence, source.load disk = .ok sequence →
        disk'.read (vectorTarget output options source) =
          .ok (vectorProduct columns sequence).text.toUTF8) ∧
      disk'.read (output.join featuresName) = .ok columns.save.toUTF8 := by
  have hconvert : ∀ source ∈ sources, ∃ bytes, disk.read source.path = .ok bytes ∧
      Conversion.vectorize columns bytes = (source.load disk).map (vectorProduct columns) := by
    intro source hm
    obtain ⟨bytes, hb⟩ := hr source hm
    exact ⟨bytes, hb, by rw [vectorize_eq_map, load_eq_of_read hb]⟩
  rw [vectorPlaces, List.nodup_append] at hd
  obtain ⟨hstage, -, hlast⟩ := hd
  rw [← written_map _ (vectorProduct columns)] at hstage
  have hread : ∀ source ∈ sources, source.path.location ∉
      written (fun source => (source.load disk).map (vectorProduct columns))
        (vectorTarget output options) sources := by
    intro source hm hw
    rw [written_map] at hw
    exact hi source hm (List.mem_append_left _ (List.mem_append_left _ hw))
  rw [vectorize, Disk.run_bind_of_ok (Disk.yields_iff_run.mp hs), Disk.run_bind, Disk.run_lift,
    perform_observeSources, hc] at h
  simp only at h
  obtain ⟨found, between, hrun⟩ :=
    disk.exists_run (run .vectorize (.vectorize columns) input output options)
  rw [Disk.run_bind, hrun] at h
  rcases run_stage hs (fun _ => rfl) hconvert hread hstage hrun with
    ⟨fault, rfl⟩ | ⟨entries, rfl, htold, -⟩
  · cases h
    exact absurd rfl (hu.1 fault)
  obtain ⟨e, hsaved, rfl⟩ | ⟨_, last, hsaved, h⟩ := Disk.run_bind_cases h
  · obtain ⟨fault, rfl⟩ := Disk.exists_fault_of_save hsaved
    exact absurd rfl (hu.1 fault)
  cases h
  obtain ⟨hreport, hwritten⟩ := ofEntries_of_told htold (hu.2 _ _ rfl)
  rw [Report.ofResults_map] at hreport
  refine ⟨by rw [hreport], fun source hm sequence hl => ?_, Disk.read_of_save hsaved⟩
  -- the columns are not saved over the vectors
  refine (Disk.keeps_of_save hsaved).read (hwritten source hm _ (by rw [hl]; rfl)) fun hplace => ?_
  exact hlast _ (List.mem_append_left _ (mem_written hm (by rw [hl]; rfl))) _ hplace rfl

theorem sameAlone_of_load {bytes : ByteArray} {vectors file : Path}
    (hl : Sequence.load bytes = .ok sequence)
    (hv : disk'.read vectors = .ok ((existing.observe sequence).vectorFile sequence).toUTF8)
    (hc : disk'.read file = .ok (existing.observe sequence).save.toUTF8) :
    SameAlone disk' (.ok bytes) existing vectors file := by
  intro there there' input output features outcome hread hstart hd hrun hu
  obtain ⟨rfl, hout, hfeatures⟩ := CommandLine.vectorize_eq_ok hread hl hstart hd hrun hu
  exact ⟨rfl, hout.trans hv.symm, fun path hp => (hfeatures path hp).trans hc.symm⟩

/-- Over a directory on a well-formed disk, if the files that are written are distinct from
each other and from those that are read, positions have 64 bits, and no fault disturbs the
run, the vectors and the columns are as `Vectorized` says. -/
theorem vectorized_of_undisturbed {outcome : Except Error (Report × Columns)}
    (hw : disk.WellFormed) (hs : Yields (discover input options.pattern) disk sources disk)
    (hd : (vectorPlaces disk output options sources).Nodup)
    (hi : ∀ source ∈ sources, source.path.location ∉ vectorPlaces disk output options sources)
    (hp : ∀ feature ∈ existing.features ++ Columns.seen (sequences disk sources), feature.Storable)
    (h : disk.run (vectorize existing input output options) = (outcome, disk'))
    (hu : Undisturbed outcome) :
    ∃ report columns, outcome = .ok (report, columns) ∧
      Vectorized disk disk' output options existing sources report columns := by
  have hr : ∀ source ∈ sources, ∃ bytes, disk.read source.path = .ok bytes := fun source =>
    exists_read_of_discover hw hs
  obtain ⟨rfl, hvectors, hcolumns⟩ := files_of_undisturbed hs hr hd hi h hu rfl
  refine ⟨_, _, rfl, ?_⟩
  rw [Columns.observeAll_eq] at hvectors hcolumns ⊢
  have hcovered : ∀ sequence ∈ sequences disk sources, ∀ record ∈ sequence,
      ∀ feature ∈ record.features,
        feature ∈ (existing.addAll (Columns.seen (sequences disk sources))).features :=
    fun sequence hm record hrecord feature hf =>
      Columns.mem_features_addAll.mpr (.inr (Columns.mem_seen hm hrecord hf))
  have hfile : ∀ source ∈ sources, ∀ sequence, source.load disk = .ok sequence →
      disk'.read (vectorTarget output options source) =
        .ok ((existing.addAll (Columns.seen (sequences disk sources))).vectorFile sequence).toUTF8 := by
    intro source hm sequence hl
    rw [hvectors source hm sequence hl, vectorProduct,
      Columns.joinLines_vectors (hcovered sequence (mem_sequences hm hl))]
  constructor
  case ascending => exact pairwise_of_discover hw hs
  case grown => exact Columns.features_addAll _ _
  case told => rfl
  case vectors =>
    intro source hm sequence hl
    refine ⟨hfile source hm sequence hl, ?_⟩
    rw [Columns.lines_vectorFile, Columns.vectors, List.map_map]
    rfl
  case counted =>
    intro sequence hm record hrecord
    exact ⟨hcovered sequence hm record hrecord, Columns.length_vector _ _,
      Columns.sum_vector (hcovered sequence hm record hrecord)⟩
  case saved =>
    refine ⟨_, hcolumns, Columns.load_of_save _ fun feature hf => hp feature ?_⟩
    exact List.mem_append.mpr (Columns.mem_features_addAll.mp hf)
  case alone =>
    intro source hone
    obtain ⟨sequence, hl, hsequences⟩ := sequences_of_filter hone
    have hm : source ∈ sources :=
      List.mem_of_mem_filter (hone ▸ List.mem_singleton_self source)
    obtain ⟨bytes, hb⟩ := hr source hm
    have hobserve : existing.observe sequence =
        existing.addAll (Columns.seen (sequences disk sources)) := by
      rw [hsequences, ← Columns.observeAll_eq]
      rfl
    rw [hb]
    refine sameAlone_of_load ((load_eq_of_read hb).symm.trans hl) ?_ ?_
    · rw [hobserve]
      exact hfile source hm sequence hl
    · rw [hobserve]
      exact hcolumns

/-- A directory with a file that holds a sequence and one that does not. -/
def pair : Disk :=
  ⟨[(["in"], .directory),
    (["in", "a.seq.json"], .file "[\x7b\"index\":0,\"node_type\":\"ID\"\x7d]".toUTF8),
    (["in", "b.seq.json"], .file "[".toUTF8)], by decide⟩

def pairSources : List Source :=
  [⟨⟨"in/a.seq.json"⟩, ["a.seq.json"]⟩, ⟨⟨"in/b.seq.json"⟩, ["b.seq.json"]⟩]

def pairOptions : Options :=
  ⟨"*", 0, none, true⟩

/-- The type of a record that the directory does not have. -/
def pairColumns : Columns :=
  .ofFeatures [⟨typeFeatureName, none, .text "Decl"⟩]

theorem wellFormed_pair : pair.WellFormed :=
  have hin := Disk.wellFormed_empty.add [] "in" .directory rfl (by decide) rfl
  (hin.add ["in"] "a.seq.json" _ rfl (by decide) rfl).add ["in"] "b.seq.json" _ rfl (by decide) rfl

theorem discover_pair : Yields (discover ⟨"in"⟩ pairOptions.pattern) pair pairSources pair := by
  have hp : Glob.parseList pairOptions.pattern = .ok [[.directories, .many]] := by decide +kernel
  have hf : ((pair.filesBelow ⟨"in"⟩).map (Source.ofNames ⟨"in"⟩)).filter
      (Glob.selects [[.directories, .many]] ·.names) = pairSources := by decide +kernel
  refine yields_discover_iff.mpr ⟨rfl, by decide +kernel, _, hp, ?_⟩
  rw [hf, List.mergeSort_of_pairwise (by decide +kernel)]

/-- Of the second file it is told that it holds no sequence, and of none anything else. -/
theorem failed_pair :
    (pair.run (vectorize pairColumns ⟨"in"⟩ ⟨"out"⟩ pairOptions)).1.toOption.map (·.1.failed) =
      some (Report.ofResults (Source.load pair) pairSources).failed := by
  rw [vectorize, Disk.run_bind_of_ok (Disk.yields_iff_run.mp discover_pair), Disk.run_bind,
    Disk.run_lift, perform_observeSources]
  simp only
  rw [Disk.run_bind]
  unfold Batch.run
  rw [Disk.run_bind_of_ok (Disk.yields_iff_run.mp discover_pair)]
  decide +kernel

theorem vectorized_of_undisturbed_pair :
    ∃ report columns disk',
      pair.run (vectorize pairColumns ⟨"in"⟩ ⟨"out"⟩ pairOptions) = (.ok (report, columns), disk') ∧
        Vectorized pair disk' ⟨"out"⟩ pairOptions pairColumns pairSources report columns := by
  obtain ⟨outcome, disk', h⟩ := pair.exists_run (vectorize pairColumns ⟨"in"⟩ ⟨"out"⟩ pairOptions)
  have hu : Undisturbed outcome := by
    have hf := failed_pair
    rw [h] at hf
    cases outcome with
    | error e => cases hf
    | ok made =>
      refine ⟨fun _ => by simp, ?_⟩
      rintro report columns ⟨⟩
      have hreport : report.failed = (Report.ofResults (Source.load pair) pairSources).failed :=
        Option.some.inj hf
      rw [Report.Undisturbed, hreport]
      exact undisturbed_ofResults fun source =>
        exists_read_of_discover wellFormed_pair discover_pair
  obtain ⟨report, columns, rfl, hv⟩ := vectorized_of_undisturbed wellFormed_pair discover_pair
    (by decide +kernel) (by decide +kernel) (by decide +kernel) h hu
  exact ⟨report, columns, disk', h, hv⟩

end TreeSeq.Batch
