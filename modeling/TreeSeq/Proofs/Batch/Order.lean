import TreeSeq.Proofs.Batch.Schedule

/-!
# The order of files does not matter

A file is converted alone on the disk that a stage starts from (`alone`). If outputs are
apart from each other and from what is read (`Apart`), a file that is converted on a disk
where some others were converted before ends as it does alone, and changes what it changes
alone (`convertFile_likewise`). So whatever is converted before, the disk is that of all the
single conversions joined (`Joined`), in which no order is left, and files that are converted
in any order give the same entries, the same report and the same disk
(`orderFree_of_apart`): so does a batch on any number of threads (`agree_runOn`).
-/

namespace TreeSeq.Batch

open Disk (Yields)

variable {disk disk' between : Disk} {stage : Stage} {convert : Conversion}
  {target : Source → Path} {input output : Path} {suffix : String} {options : Options}
  {source other : Source} {sources order past : List Source} {steps : List Step}
  {location : List String}

/-! ## Files that are apart -/

/-- Outputs are different files, none is a directory on the way to another, and none is
read. -/
structure Apart (target : Source → Path) (sources : List Source) : Prop where
  distinct : (sources.map fun source => (target source).location).Nodup
  aside : ∀ source ∈ sources, ∀ other ∈ sources, source ≠ other →
    (target source).location ∉ (target other).way
  unread : ∀ source ∈ sources, ∀ other ∈ sources,
    (target source).location ≠ other.path.location

theorem Apart.ne (h : Apart target sources) (hs : source ∈ sources) (ho : other ∈ sources)
    (hne : source ≠ other) : (target source).location ≠ (target other).location :=
  fun he => hne (List.inj_on_of_nodup_map h.distinct hs ho he)

/-- What comes of a file that is converted alone, and the disk that it leaves. -/
def alone (convert : Conversion) (target : Source → Path) (disk : Disk) (source : Source) :
    Except Error Nat × Disk :=
  disk.run (convertFile convert source.path (target source))

/-- What the output of a file stands for and what is on the way to it is all that changes when
the file is converted alone. -/
theorem changes_alone (convert : Conversion) (target : Source → Path) (disk : Disk)
    (source : Source) :
    disk.Changes (alone convert target disk source).2 (target source).way
      [(target source).location] := by
  have hrun : disk.run (convertFile convert source.path (target source)) =
      alone convert target disk source := rfl
  refine (changes_of_convertFile hrun).mono (List.Subset.refl _) ?_
  split
  · exact List.Subset.refl _
  · exact List.nil_subset _

/-- Where two files both change something, they make the same directory. -/
theorem agree_alone (ha : Apart target sources) (hs : source ∈ sources) (ho : other ∈ sources)
    (hc : Disk.entry? (alone convert target disk source).2 location ≠ disk.entry? location)
    (hc' : Disk.entry? (alone convert target disk other).2 location ≠ disk.entry? location) :
    Disk.entry? (alone convert target disk source).2 location =
      Disk.entry? (alone convert target disk other).2 location := by
  by_cases hne : source = other
  · rw [hne]
  have hchange := changes_alone convert target disk source location
  have hchange' := changes_alone convert target disk other location
  generalize Disk.entry? (alone convert target disk source).2 location = after at hc hchange ⊢
  generalize Disk.entry? (alone convert target disk other).2 location = after' at hc' hchange' ⊢
  generalize disk.entry? location = before at hc hc' hchange hchange'
  cases hchange with
  | same _ => exact absurd rfl hc
  | made hm =>
    cases hchange' with
    | same _ => exact absurd rfl hc'
    | made _ => rfl
    | written hw _ _ =>
      rw [List.mem_singleton.mp hw] at hm
      exact absurd hm (ha.aside other ho source hs (Ne.symm hne))
  | written hw _ _ =>
    obtain rfl := List.mem_singleton.mp hw
    cases hchange' with
    | same _ => exact absurd rfl hc'
    | made hm => exact absurd hm (ha.aside source hs other ho hne)
    | written hw' _ _ => exact absurd (List.mem_singleton.mp hw') (ha.ne hs ho hne)

/-! ## One file after others -/

/-- The directories that some files may make. -/
def waysOf (target : Source → Path) (sources : List Source) : List (List String) :=
  sources.flatMap fun source => (target source).way

/-- The outputs of some files. -/
def placesOf (target : Source → Path) (sources : List Source) : List (List String) :=
  sources.map fun source => (target source).location

/-- A file that is converted after some others ends as it does alone, with the same
changes. -/
theorem convertFile_likewise (convert : Conversion) (hw : disk.WellFormed) (hw' : disk'.WellFormed)
    (ha : Apart target sources) (hp : past ⊆ sources) (hs : source ∈ sources)
    (hn : source ∉ past) (hread : ∃ bytes, disk.read source.path = .ok bytes)
    (hc : disk.Changes disk' (waysOf target past) (placesOf target past)) :
    (alone convert target disk' source).1 = (alone convert target disk source).1 ∧
      Disk.Likewise disk (alone convert target disk source).2 disk'
        (alone convert target disk' source).2 := by
  have hne : ∀ other ∈ past, source ≠ other := fun other ho he => hn (he ▸ ho)
  obtain ⟨bytes, hb⟩ := hread
  have hb' : disk'.read source.path = .ok bytes := by
    refine hc.keeps.read hb fun hm => ?_
    obtain ⟨other, ho, he⟩ := List.mem_map.mp hm
    exact ha.unread other (hp ho) source hs he
  have hmade : (target source).location ∉ waysOf target past := by
    intro hm
    obtain ⟨other, ho, hway⟩ := List.mem_flatMap.mp hm
    exact ha.aside source hs other (hp ho) (hne other ho) hway
  have hplace : (target source).location ∉ placesOf target past := by
    intro hm
    obtain ⟨other, ho, he⟩ := List.mem_map.mp hm
    exact ha.ne hs (hp ho) (hne other ho) he.symm
  have hway : ∀ place ∈ (target source).way, place ∉ placesOf target past := by
    intro place hplace hm
    obtain ⟨other, ho, rfl⟩ := List.mem_map.mp hm
    exact ha.aside other (hp ho) source hs (Ne.symm (hne other ho)) hplace
  rw [alone, alone, run_convertFile, run_convertFile, Conversion.result_of_read hb,
    Conversion.result_of_read hb']
  cases convert bytes with
  | error e => exact ⟨rfl, .refl _ _⟩
  | ok product =>
    obtain ⟨houtcome, hl⟩ := Disk.save_likewise hw hw' hc hmade hplace hway product.text
    simp only [houtcome, true_and]
    exact hl

/-! ## All files -/

/-- The second disk is the first one with what each of some files changes alone. -/
def Joined (convert : Conversion) (target : Source → Path) (disk : Disk) (past : List Source)
    (disk' : Disk) : Prop :=
  ∀ location,
    (∀ source ∈ past,
      Disk.entry? (alone convert target disk source).2 location ≠ disk.entry? location →
        disk'.entry? location = Disk.entry? (alone convert target disk source).2 location) ∧
    ((∀ source ∈ past,
        Disk.entry? (alone convert target disk source).2 location = disk.entry? location) →
      disk'.entry? location = disk.entry? location)

namespace Joined

theorem nil (disk : Disk) : Joined convert target disk [] disk :=
  fun _ => ⟨List.forall_mem_nil _, fun _ => rfl⟩

/-- No order is left. -/
theorem same {last : Disk} (h : Joined convert target disk past disk')
    (h' : Joined convert target disk order last) (hp : order.Perm past) : disk'.Same last := by
  intro location
  by_cases hex : ∃ source ∈ past,
      Disk.entry? (alone convert target disk source).2 location ≠ disk.entry? location
  · obtain ⟨source, hs, hc⟩ := hex
    rw [(h location).1 source hs hc, (h' location).1 source (hp.mem_iff.mpr hs) hc]
  · have hall : ∀ source ∈ past,
        Disk.entry? (alone convert target disk source).2 location = disk.entry? location := by
      intro source hs
      by_contra hc
      exact hex ⟨source, hs, hc⟩
    rw [(h location).2 hall, (h' location).2 fun source hs => hall source (hp.mem_iff.mp hs)]

/-- The output of a file is that of the file alone. -/
theorem entry?_location (h : Joined convert target disk past disk') (ha : Apart target sources)
    (hp : past ⊆ sources) (hs : source ∈ past) : disk'.entry? (target source).location =
      Disk.entry? (alone convert target disk source).2 (target source).location := by
  by_cases hsame : Disk.entry? (alone convert target disk source).2 (target source).location =
      disk.entry? (target source).location
  · rw [hsame]
    refine (h _).2 fun other ho => ?_
    by_cases he : source = other
    · rw [← he, hsame]
    · have hway := ha.aside source (hp hs) other (hp ho) he
      refine (changes_alone convert target disk other _).eq hway fun hm => ?_
      exact ha.ne (hp hs) (hp ho) he (List.mem_singleton.mp hm)
  · exact (h _).1 source hs hsame

/-- One more file. -/
theorem cons (h : Joined convert target disk past disk') (ha : Apart target sources)
    (hp : past ⊆ sources) (hs : source ∈ sources)
    (hl : Disk.Likewise disk (alone convert target disk source).2 disk' between) :
    Joined convert target disk (source :: past) between := by
  intro location
  by_cases hsame : Disk.entry? (alone convert target disk source).2 location = disk.entry? location
  · have hkept := (hl location).1 hsame
    refine ⟨List.forall_mem_cons.mpr ⟨fun hc => absurd hsame hc, fun other ho hc => ?_⟩,
      fun hall => ?_⟩
    · rw [hkept, (h location).1 other ho hc]
    · rw [hkept, (h location).2 (List.forall_mem_cons.mp hall).2]
  · have hchanged := (hl location).2 hsame
    refine ⟨List.forall_mem_cons.mpr ⟨fun _ => hchanged, fun other ho hc => ?_⟩,
      fun hall => absurd (List.forall_mem_cons.mp hall).1 hsame⟩
    rw [hchanged]
    exact agree_alone ha hs (hp ho) hsame hc

end Joined

/-- Files that are converted one after the other, after some others, end as they do alone,
and leave a disk on which all of them are joined. -/
theorem Converts.joined (hw : disk.WellFormed) (ha : Apart target sources)
    (hread : ∀ source ∈ sources, ∃ bytes, disk.read source.path = .ok bytes)
    (hc : Converts convert target between steps disk') (hb : between.WellFormed)
    (hp : past ⊆ sources) (hs : steps.map (·.1) ⊆ sources)
    (hn : (steps.map (·.1)).Nodup) (hd : ∀ source ∈ steps.map (·.1), source ∉ past)
    (hchanges : disk.Changes between (waysOf target past) (placesOf target past))
    (hj : Joined convert target disk past between) :
    (∀ step ∈ steps, step.2 = (alone convert target disk step.1).1) ∧
      Joined convert target disk ((steps.map (·.1)).reverse ++ past) disk' := by
  induction hc generalizing past with
  | nil between => exact ⟨List.forall_mem_nil _, hj⟩
  | @cons between next last source outcome rest hstep _ ih =>
    rw [List.map_cons, List.cons_subset] at hs
    rw [List.map_cons, List.nodup_cons] at hn
    rw [List.map_cons, List.forall_mem_cons] at hd
    obtain ⟨houtcome, hl⟩ := convertFile_likewise convert hw hb ha hp hs.1 hd.1
      (hread source hs.1) hchanges
    have hrun : alone convert target between source = (outcome, next) := hstep
    rw [hrun] at houtcome hl
    have hnext : disk.Changes next (waysOf target (source :: past))
        (placesOf target (source :: past)) := by
      have hone := changes_alone convert target between source
      rw [hrun] at hone
      refine (hchanges.trans hone).mono ?_ ?_
      · rw [waysOf, waysOf, List.flatMap_cons]
        exact (List.perm_append_comm).subset
      · rw [placesOf, placesOf, List.map_cons]
        exact (List.perm_append_comm).subset
    obtain ⟨hsteps, hjoined⟩ := ih (wellFormed_of_convertFile hb hstep)
      (List.cons_subset.mpr ⟨hs.1, hp⟩) hs.2 hn.2
      (fun other ho hm => (List.mem_cons.mp hm).elim (fun he => hn.1 (he ▸ ho)) (hd.2 other ho))
      hnext (hj.cons ha hp hs.1 hl)
    rw [List.map_cons, List.reverse_cons, List.append_assoc, List.singleton_append]
    exact ⟨List.forall_mem_cons.mpr ⟨houtcome, hsteps⟩, hjoined⟩

/-- From the start. -/
theorem Converts.joined_of_perm (hw : disk.WellFormed) (ha : Apart target sources)
    (hread : ∀ source ∈ sources, ∃ bytes, disk.read source.path = .ok bytes)
    (hc : Converts convert target disk steps disk') (hp : (steps.map (·.1)).Perm sources) :
    (∀ step ∈ steps, step.2 = (alone convert target disk step.1).1) ∧
      Joined convert target disk (steps.map (·.1)).reverse disk' := by
  have hn : (steps.map (·.1)).Nodup := hp.nodup_iff.mpr (List.Nodup.of_map _ ha.distinct)
  have hj := hc.joined hw ha hread hw (List.nil_subset _) hp.subset hn
    (fun _ _ => List.not_mem_nil) (.refl _ _ _) (.nil disk)
  rwa [List.append_nil] at hj

/-! ## Entries -/

/-- What is told of a file that is converted alone. -/
theorem entry_alone (ht : source.target output suffix = target source) :
    (disk.perform (convertSource stage convert output suffix source)).1 =
        Step.entry stage target (source, (alone convert target disk source).1) ∧
      (disk.perform (convertSource stage convert output suffix source)).2 =
        (alone convert target disk source).2 := by
  rw [perform_convertSource, ht, ← alone]
  obtain ⟨outcome, between⟩ := alone convert target disk source
  cases outcome <;> exact ⟨rfl, rfl⟩

/-- Files that are told of in some order are found under what they are. -/
theorem filterMap_get? {α : Type} {f : Source → α} (hp : sources ⊆ order) :
    sources.filterMap (Fields.get? (order.map fun source => (source, f source))) =
      sources.map f := by
  have hget : ∀ source ∈ sources,
      Fields.get? (order.map fun source => (source, f source)) source = some (f source) := by
    intro source hs
    obtain ⟨found, hf⟩ : ∃ found, Fields.get? (order.map fun source => (source, f source)) source =
        some found := by
      rw [← Fields.mem_names_iff, Fields.names, List.map_map]
      exact List.mem_map.mpr ⟨source, hp hs, rfl⟩
    obtain ⟨other, -, he⟩ := List.mem_map.mp (Fields.mem_of_get? hf)
    obtain ⟨rfl, rfl⟩ := Prod.mk.inj he
    exact hf
  rw [List.filterMap_congr hget]
  exact congrFun (List.filterMap_eq_map (f := f)) sources

/-- Files that are apart are told of as each of them alone, in whatever order they are
converted, and nothing is left of the order on the disk. -/
theorem convertInOrder_alike (stage : Stage) (convert : Conversion) (hw : disk.WellFormed)
    (ht : ∀ source : Source, source.target output suffix = target source)
    (ha : Apart target sources)
    (hread : ∀ source ∈ sources, ∃ bytes, disk.read source.path = .ok bytes)
    (hp : order.Perm sources) :
    (disk.perform (convertInOrder stage convert output suffix sources order)).1 =
        (sources.map fun source =>
          (disk.perform (convertSource stage convert output suffix source)).1) ∧
      Joined convert target disk order.reverse
        (disk.perform (convertInOrder stage convert output suffix sources order)).2 := by
  obtain ⟨steps, disk', rfl, hc, hperform⟩ :=
    perform_convertSources stage convert disk order ht
  obtain ⟨halone, hjoined⟩ := hc.joined_of_perm hw ha hread hp
  have htold : (steps.map (·.1)).zip (steps.map (Step.entry stage target)) =
      (steps.map (·.1)).map fun source =>
        (source, (disk.perform (convertSource stage convert output suffix source)).1) := by
    rw [List.zip_map', List.map_map]
    refine List.map_congr_left fun step hm => ?_
    rw [Function.comp_apply, (entry_alone (ht step.1)).1, ← halone step hm]
  rw [convertInOrder, Disk.perform_bind, hperform]
  simp only [htold]
  exact ⟨filterMap_get? hp.symm.subset, hjoined⟩

/-- So it is for the order in which they were found. -/
theorem convertSources_alike (stage : Stage) (convert : Conversion) (hw : disk.WellFormed)
    (ht : ∀ source : Source, source.target output suffix = target source)
    (ha : Apart target sources)
    (hread : ∀ source ∈ sources, ∃ bytes, disk.read source.path = .ok bytes) :
    (disk.perform (sources.mapM (convertSource stage convert output suffix))).1 =
        (sources.map fun source =>
          (disk.perform (convertSource stage convert output suffix source)).1) ∧
      Joined convert target disk sources.reverse
        (disk.perform (sources.mapM (convertSource stage convert output suffix))).2 := by
  have hd : sources.Nodup := List.Nodup.of_map _ ha.distinct
  rw [← perform_convertInOrder hd]
  exact convertInOrder_alike stage convert hw ht ha hread (.refl _)

/-! ## Runs -/

/-- What comes after the conversions sees no more than what stands on the disk. -/
theorem steady_closing (output : Path) (options : Options) (entries : List Manifest.Entry) :
    Disk.Steady (do
      if options.manifest then
        Files.overwrite (output.join manifestName) (Manifest.save entries)
      return Report.ofEntries entries) := by
  cases options.manifest with
  | false => exact .pure _
  | true => exact (Disk.steady_overwrite _ _).bind fun _ => .pure _

section

variable {arrange : List Source → List Source} (hw : disk.WellFormed)
  (hs : Yields (discover input options.pattern) disk sources disk)

include hw hs

/-- The files can still be read when there is the output directory. -/
theorem exists_read_of_opened {opened : Disk}
    (ho : Yields (Files.ensureDirectory output) disk () opened) :
    ∀ source ∈ sources, ∃ bytes, opened.read source.path = .ok bytes := by
  intro source hm
  obtain ⟨bytes, hb⟩ := exists_read_of_discover hw hs hm
  exact ⟨bytes, (Disk.keeps_of_ensureDirectory ho).read hb List.not_mem_nil⟩

/-- A stage whose outputs are apart ends alike in whatever order its files are converted. -/
theorem agree_runInOrder (convert : Conversion)
    (ha : Apart (stageTarget stage output options) sources) (hp : (arrange sources).Perm sources) :
    Disk.Agree (disk.run (run stage convert input output options))
      (disk.run (runInOrder arrange stage convert input output options)) := by
  have ht (source : Source) : source.target output (options.suffix.getD stage.suffix) =
      stageTarget stage output options source := rfl
  rw [runInOrder, run, Disk.run_bind_of_ok (Disk.yields_iff_run.mp hs),
    Disk.run_bind_of_ok (Disk.yields_iff_run.mp hs), Disk.run_bind, Disk.run_bind]
  obtain ⟨made, opened, ho⟩ := disk.exists_run (Files.ensureDirectory output)
  rw [ho]
  cases made with
  | error e => exact .refl _
  | ok _ =>
    have hread := exists_read_of_opened hw hs ho
    have harranged :=
      convertInOrder_alike stage convert (hw.of_ensureDirectory ho) ht ha hread hp
    have hfound := convertSources_alike stage convert (hw.of_ensureDirectory ho) ht ha hread
    simp only [Disk.run_bind opened, Disk.run_lift, harranged.1, hfound.1]
    refine steady_closing output options _ _ _ (hfound.2.same harranged.2 ?_)
    exact (List.reverse_perm _).trans (hp.trans (List.reverse_perm _).symm)

/-- However many threads there are, a batch whose outputs are apart from each other and from
what is read comes to the same report, and leaves the same disk. -/
theorem agree_runOn (scheduler : Scheduler) (task : Task)
    (ha : Apart (task.target output options) sources) :
    Disk.Agree (disk.run (task.run input output options))
      (disk.run (task.runOn scheduler input output options)) := by
  rw [← Task.run_runBy, Task.runOn]
  rcases Task.run_runBy_cases disk task input output options with
    ⟨ended, h⟩ | ⟨convert, next, hn, h⟩
  · rw [h, h]
    exact .refl _
  · rw [h, h]
    exact (agree_runInOrder hw hs convert ha (scheduler.perm options.threads sources)).bind hn

end

/-- What a stage that converts its files in another order comes to, compared to the order in
which it finds them, and to each file alone. -/
structure OrderFree (arrange : List Source → List Source) (stage : Stage) (convert : Conversion)
    (input output : Path) (options : Options) (disk : Disk) (sources : List Source) : Prop where
  /-- It ends the same, with the same report. -/
  report : (disk.run (runInOrder arrange stage convert input output options)).1 =
    (disk.run (run stage convert input output options)).1
  /-- It leaves the same disk. -/
  leaves : (disk.run (run stage convert input output options)).2.Same
    (disk.run (runInOrder arrange stage convert input output options)).2
  /-- It tells the same of the files. -/
  tells : ∀ opened, Yields (Files.ensureDirectory output) disk () opened →
    (opened.perform (convertInOrder stage convert output (options.suffix.getD stage.suffix) sources
        (arrange sources))).1 =
      (opened.perform
        (sources.mapM (convertSource stage convert output (options.suffix.getD stage.suffix)))).1
  /-- Of each file it tells what it would tell of the file alone. -/
  tellsAlone : ∀ opened, Yields (Files.ensureDirectory output) disk () opened →
    (opened.perform (convertInOrder stage convert output (options.suffix.getD stage.suffix) sources
        (arrange sources))).1 =
      sources.map fun source => (opened.perform
        (convertSource stage convert output (options.suffix.getD stage.suffix) source)).1
  /-- The output of each file is what it would be for the file alone. -/
  leavesAlone : ∀ opened, Yields (Files.ensureDirectory output) disk () opened →
    ∀ source ∈ sources,
      Disk.entry?
          (opened.perform (convertInOrder stage convert output
            (options.suffix.getD stage.suffix) sources (arrange sources))).2
          (stageTarget stage output options source).location =
        Disk.entry?
          (opened.perform (convertSource stage convert output
            (options.suffix.getD stage.suffix) source)).2
          (stageTarget stage output options source).location

/-- A stage whose outputs are apart from each other and from the files that it finds does not
depend on the order in which it converts the files. -/
theorem orderFree_of_apart {arrange : List Source → List Source} (hw : disk.WellFormed)
    (hs : Yields (discover input options.pattern) disk sources disk)
    (ha : Apart (stageTarget stage output options) sources) (hp : (arrange sources).Perm sources) :
    OrderFree arrange stage convert input output options disk sources := by
  have ht (source : Source) : source.target output (options.suffix.getD stage.suffix) =
      stageTarget stage output options source := rfl
  have harranged {opened : Disk} (ho : Yields (Files.ensureDirectory output) disk () opened) :=
    convertInOrder_alike stage convert (hw.of_ensureDirectory ho) ht ha
      (exists_read_of_opened hw hs ho) hp
  have hfound {opened : Disk} (ho : Yields (Files.ensureDirectory output) disk () opened) :=
    convertSources_alike stage convert (hw.of_ensureDirectory ho) ht ha
      (exists_read_of_opened hw hs ho)
  have hboth := agree_runInOrder hw hs convert ha hp
  constructor
  case report => exact hboth.outcome
  case leaves => exact hboth.same
  case tells => exact fun opened ho => (harranged ho).1.trans (hfound ho).1.symm
  case tellsAlone => exact fun opened ho => (harranged ho).1
  case leavesAlone =>
    intro opened ho source hm
    have hperm : (arrange sources).reverse.Perm sources := (List.reverse_perm _).trans hp
    rw [(harranged ho).2.entry?_location ha hperm.subset (hperm.mem_iff.mpr hm)]
    exact congrArg (Disk.entry? · _) (entry_alone rfl).2.symm

/-- The second file goes first. -/
theorem orderFree_of_apart_pair :
    OrderFree List.reverse .decode .decode ⟨"in"⟩ ⟨"out"⟩ pairOptions pair pairSources :=
  orderFree_of_apart wellFormed_pair discover_pair
    ⟨by decide +kernel, by decide +kernel, by decide +kernel⟩ (List.reverse_perm _)

end TreeSeq.Batch
