import TreeSeq.Proofs.Batch.Manifest
import TreeSeq.Proofs.Batch.Names
import TreeSeq.Proofs.Batch.Order
import TreeSeq.Proofs.Disk.Vacant

/-!
# Batches into empty directories

A batch that writes into a directory that was empty, or not there, leaves its outputs in it
and nothing else but its own files (`Course.mem_of_file`). As it reads none of them,
each output holds what is made of the file as it was in the beginning, if no two files share
an output (`Passage.read_of_ok`). And nothing but the files themselves can make it fail
(`Passage.eq_ok_of_apart`, `Passage.exists_overwrite`).
-/

namespace TreeSeq.Batch

open Disk (Yields)

variable {stage : Stage} {convert : Conversion} {input output root other : Path}
  {options : Options} {disk disk' opened : Disk} {source : Source} {sources : List Source}
  {place : List String} {bytes : ByteArray} {suffix pattern : String} {items : Nat}

/-! ## Outputs -/

namespace Source

theorem location_target (hn : ∀ name ∈ source.outputNames suffix, Path.IsName name) :
    (source.target output suffix).location = output.location ++ source.outputNames suffix :=
  Path.location_joinAll output hn

theorem above_target (hn : ∀ name ∈ source.outputNames suffix, Path.IsName name) :
    output.Above (source.target output suffix).location :=
  Path.above_joinAll output (source.outputNames_ne_nil suffix) hn

/-- The file that is made of a file, as another batch finds it. -/
def made (source : Source) (output : Path) (suffix : String) : Source :=
  ⟨source.target output suffix, source.outputNames suffix⟩

theorem ofNames_outputNames (source : Source) (output : Path) (suffix : String) :
    ofNames output (source.outputNames suffix) = source.made output suffix := by
  rw [ofNames, if_neg (by simpa using source.outputNames_ne_nil suffix)]
  rfl

end Source

/-- Files below a directory are found by the names on the way down to them. -/
theorem below_of_mem_discover (hw : disk.WellFormed) (hk : disk.kind? root = some .directory)
    (h : Yields (discover root pattern) disk sources disk') (hm : source ∈ sources) :
    source.names ≠ [] ∧ source = ⟨root.joinAll source.names, source.names⟩ ∧
      source.path.location = root.location ++ source.names ∧
      ∃ bytes, disk.entry? source.path.location = some (.file bytes) := by
  obtain ⟨names, bytes, rfl, hl, hb⟩ := location_of_mem_discover hw h hm
  have hne : names ≠ [] := by
    rintro rfl
    rw [hl, List.append_nil, (Disk.kind?_eq_directory_iff.mp hk).2.2] at hb
    cases hb
  have hnames : Source.ofNames root names = ⟨root.joinAll names, names⟩ := by
    rw [Source.ofNames, if_neg (by simpa using hne)]
  rw [hnames] at hl hb ⊢
  exact ⟨hne, rfl, hl, bytes, hb⟩

theorem nodup_names (hw : disk.WellFormed)
    (h : Yields (discover root pattern) disk sources disk') : (sources.map (·.names)).Nodup :=
  List.pairwise_map.mpr ((pairwise_of_discover hw h).imp fun hlt => ne_of_lt hlt)

/-- The files that are found below a directory stand apart: none is in a directory of the
name of another. -/
theorem apart_of_discover (hw : disk.WellFormed) (hk : disk.kind? root = some .directory)
    (h : Yields (discover root pattern) disk sources disk') {other : Source}
    (hs : source ∈ sources) (ho : other ∈ sources) (hp : source.names <+: other.names) :
    source.names = other.names := by
  obtain ⟨-, -, hl, bytes, hb⟩ := below_of_mem_discover hw hk h hs
  obtain ⟨-, -, hl', bytes', hb'⟩ := below_of_mem_discover hw hk h ho
  obtain ⟨rest, hrest⟩ := hp
  rw [hl'] at hb'
  rw [← hrest, ← List.append_assoc, ← hl] at hb'
  rw [← hrest, hw.eq_nil_of_file hb hb', List.append_nil]

/-- There are names on the way down to a file that is found. -/
theorem isName_of_discover (hw : disk.WellFormed) (hk : disk.kind? root = some .directory)
    (h : Yields (discover root pattern) disk sources disk')
    (hs : source ∈ sources) : ∀ name ∈ source.names, Path.IsName name := by
  obtain ⟨-, -, hl, bytes, hb⟩ := below_of_mem_discover hw hk h hs
  exact hw.isName_of_stands (hl ▸ hb)

/-! ## Into a vacant directory -/

namespace Passage

/-- What is changed once all files are converted. -/
theorem changes (passage : Passage stage convert input output options disk) :
    disk.Changes passage.converted
      (Path.entered [] output.parts ++ Step.ways (stageTarget stage output options) passage.steps)
      (Step.places (stageTarget stage output options) passage.steps) :=
  (Disk.changes_of_ensureDirectory passage.opens).trans passage.converts.changes

theorem wellFormed (passage : Passage stage convert input output options disk)
    (hw : disk.WellFormed) : passage.converted.WellFormed :=
  passage.converts.wellFormed (hw.of_ensureDirectory passage.opens)

/-- There are names on the ways from the output directory to the outputs. -/
def Named (passage : Passage stage convert input output options disk) : Prop :=
  ∀ source ∈ passage.steps.map (·.1),
    ∀ name ∈ source.outputNames (options.suffix.getD stage.suffix), Path.IsName name

variable {passage : Passage stage convert input output options disk}

/-- Directories are made on the way to the output directory and below it. -/
theorem entered_or_above (hn : passage.Named)
    (hm : place ∈ Path.entered [] output.parts ++
      Step.ways (stageTarget stage output options) passage.steps) :
    place ∈ Path.entered [] output.parts ∨ output.Above place := by
  rcases List.mem_append.mp hm with hm | hm
  · exact .inl hm
  · obtain ⟨step, hs, hway⟩ := List.mem_flatMap.mp hm
    have hnames := hn step.1 (List.mem_map_of_mem hs)
    refine (Path.way_joinAll output (Source.outputNames_ne_nil _ _) hnames hway).imp_right ?_
    rintro ⟨front, hne, -, -, he⟩
    exact ⟨front, hne, he⟩

/-- Files are written below the output directory. -/
theorem above_of_mem_places (hn : passage.Named)
    (hm : place ∈ Step.places (stageTarget stage output options) passage.steps) :
    output.Above place := by
  obtain ⟨source, items, hs, rfl⟩ := Step.mem_places.mp hm
  exact Source.above_target (hn source (List.mem_map.mpr ⟨_, hs, rfl⟩))

/-- The output of a file that was converted holds what is made of the file. -/
theorem read_of_ok (hv : disk.Vacant output) (hn : passage.Named)
    (hd : ((passage.steps.map (·.1)).map fun source =>
      (stageTarget stage output options source).location).Nodup)
    (hm : (source, .ok items) ∈ passage.steps) (hb : disk.read source.path = .ok bytes) :
    ∃ product, convert bytes = .ok product ∧ product.items = items ∧
      passage.converted.read (stageTarget stage output options source) =
        .ok product.text.toUTF8 := by
  obtain ⟨before, after, hsteps⟩ := List.append_of_mem hm
  have hc := passage.converts
  rw [hsteps] at hc hd
  obtain ⟨turn, product, hturn, hresult, hitems, hread⟩ := hc.read_of_ok
  have hplaces : Step.places (stageTarget stage output options) before ⊆
      Step.places (stageTarget stage output options) passage.steps := by
    intro place hp
    obtain ⟨source, items, hs, rfl⟩ := Step.mem_places.mp hp
    exact Step.mem_places.mpr
      ⟨source, items, hsteps ▸ List.mem_append_left _ hs, rfl⟩
  -- the file stood there when the output directory was empty
  have hunwritten : source.path.location ∉
      Step.places (stageTarget stage output options) before := by
    intro hp
    have hfile := (Disk.read_eq_ok_iff.mp hb).2.2
    rw [hv.empty _ (above_of_mem_places hn (hplaces hp))] at hfile
    cases hfile
  have hbytes : turn.read source.path = .ok bytes :=
    hturn.changes.keeps.read
      ((Disk.keeps_of_ensureDirectory passage.opens).read hb List.not_mem_nil) hunwritten
  rw [Conversion.result_of_read hbytes] at hresult
  refine ⟨product, hresult, hitems, hread fun hp => ?_⟩
  obtain ⟨later, count, hl, he⟩ := Step.mem_places.mp hp
  rw [List.map_map, List.map_append, List.map_cons, List.nodup_append, List.nodup_cons] at hd
  exact hd.2.1.1 (List.mem_map.mpr ⟨_, hl, he⟩)

/-- If outputs are apart, and each file is one that can be converted, no file fails. -/
theorem eq_ok_of_apart (hw : disk.WellFormed) (hv : disk.Vacant output) (hn : passage.Named)
    (ha : Apart (stageTarget stage output options) (passage.steps.map (·.1)))
    (hok : ∀ source ∈ passage.steps.map (·.1), ∃ bytes product,
      disk.read source.path = .ok bytes ∧ convert bytes = .ok product) :
    ∀ step ∈ passage.steps, ∃ items, step.2 = .ok items := by
  have hread : ∀ source ∈ passage.steps.map (·.1), ∃ bytes product,
      passage.opened.read source.path = .ok bytes ∧ convert bytes = .ok product := by
    intro source hs
    obtain ⟨bytes, product, hb, hp⟩ := hok source hs
    exact ⟨bytes, product,
      (Disk.keeps_of_ensureDirectory passage.opens).read hb List.not_mem_nil, hp⟩
  have hbytes : ∀ source ∈ passage.steps.map (·.1), ∃ bytes,
      passage.opened.read source.path = .ok bytes := by
    intro source hs
    obtain ⟨bytes, -, hb, -⟩ := hread source hs
    exact ⟨bytes, hb⟩
  have halone := (passage.converts.joined_of_perm (hw.of_ensureDirectory passage.opens) ha hbytes
    (.refl _)).1
  intro step hs
  have hm : step.1 ∈ passage.steps.map (·.1) := List.mem_map_of_mem hs
  obtain ⟨bytes, product, hb, hp⟩ := hread step.1 hm
  obtain ⟨saved, hsaved⟩ := hv.exists_save hw passage.opens
    (Source.outputNames_ne_nil step.1 _) (hn step.1 hm) product.text
  refine ⟨product.items, ?_⟩
  rw [halone step hs, alone, run_convertFile, Conversion.result_of_read hb, hp]
  simp only
  rw [stageTarget, Source.target_eq, Disk.yields_iff_run.mp hsaved]
  rfl

/-- The directories on the way to the output directory stay. -/
theorem directories (passage : Passage stage convert input output options disk) :
    ∀ place ∈ Path.entered [] output.parts,
      passage.converted.entry? place = some .directory := by
  intro place hplace
  exact passage.converts.changes.keeps _ _
    (Disk.directories_of_ensureDirectory passage.opens place hplace) (.inl rfl)

/-- The manifest can be written, if no output is below a directory of its name. -/
theorem exists_overwrite (hw : disk.WellFormed) (hv : disk.Vacant output) (hn : passage.Named)
    (hm : ∀ source ∈ passage.steps.map (·.1),
      ¬ [manifestName] <+: source.outputNames (options.suffix.getD stage.suffix))
    (text : String) : ∃ disk',
      Yields (Files.overwrite (output.join manifestName) text) passage.converted () disk' := by
  have hlocation := Path.location_join output isName_manifestName
  obtain ⟨above, hp, -, he⟩ := Path.exists_parts_join output isName_manifestName.noSlash
  have habove : output.Above (output.join manifestName).location :=
    ⟨[manifestName], List.cons_ne_nil _ _, hlocation⟩
  refine (passage.wellFormed hw).exists_overwrite hp isName_manifestName (fun place hplace => ?_)
    (fun hd => ?_) text
  · exact passage.directories place (he ▸ hplace)
  · rcases passage.changes.mem_made hd with hold | hmade
    · rw [hv.empty _ habove] at hold
      cases hold
    rcases List.mem_append.mp hmade with hentered | hways
    · exact hv.aside _ hentered habove
    · obtain ⟨step, hs, hway⟩ := List.mem_flatMap.mp hways
      have hsource : step.1 ∈ passage.steps.map (·.1) := List.mem_map_of_mem hs
      rcases Path.way_joinAll output (Source.outputNames_ne_nil _ _) (hn _ hsource) hway with
        hentered | ⟨front, -, hprefix, -, hfront⟩
      · exact hv.aside _ hentered habove
      · rw [hlocation, List.append_cancel_left_eq] at hfront
        exact hm _ hsource (hfront ▸ hprefix)

end Passage

/-! ## With a manifest -/

theorem above_of_mem_manifestPlace (hm : place ∈ manifestPlace output options) :
    output.Above place := by
  rw [manifestPlace] at hm
  split at hm
  · rw [List.mem_singleton.mp hm]
    exact ⟨[manifestName], List.cons_ne_nil _ _, Path.location_join output isName_manifestName⟩
  · cases hm

namespace Course

variable {course : Course stage convert input output options (manifestPlace output options) disk
  disk'}

/-- What is changed in the end. -/
theorem changes
    (course : Course stage convert input output options (manifestPlace output options) disk disk') :
    disk.Changes disk'
      (Path.entered [] output.parts ++ Step.ways (stageTarget stage output options) course.steps)
      (Step.places (stageTarget stage output options) course.steps ++
        manifestPlace output options) :=
  (course.toPassage.changes.trans course.closes).mono (by simp) (List.Subset.refl _)

theorem above_of_mem_written (hn : course.Named)
    (hm : place ∈ Step.places (stageTarget stage output options) course.steps ++
      manifestPlace output options) : output.Above place :=
  (List.mem_append.mp hm).elim (Passage.above_of_mem_places hn) above_of_mem_manifestPlace

/-- The files below the output directory are outputs, and the manifest. -/
theorem mem_of_file (hv : disk.Vacant output) (ha : output.Above place)
    (he : disk'.entry? place = some (.file bytes)) :
    place ∈ Step.places (stageTarget stage output options) course.steps ∨
      place ∈ manifestPlace output options := by
  refine List.mem_append.mp ((course.changes.mem_written he).resolve_left fun hb => ?_)
  rw [hv.empty place ha] at hb
  cases hb

/-- In the end the output directory is there. -/
theorem kind?_output (hw : disk.WellFormed) (hv : disk.Vacant output)
    (course : Course stage convert input output options (manifestPlace output options) disk disk') :
    disk'.kind? output = some .directory := by
  refine (course.wellFormed (course.toPassage.wellFormed hw)).kind?_of_directories hv.named ?_
  exact fun place hm => course.closes.keeps _ _ (course.directories place hm) (.inl rfl)

/-- Another directory that is vacant stays so. -/
theorem vacant (hn : course.Named) (hs : output.Separate other) (hv : disk.Vacant other) :
    disk'.Vacant other :=
  hv.of_changes course.changes hs (fun _ => Passage.entered_or_above hn)
    fun _ => course.above_of_mem_written hn

/-- What is below another directory stays as it is. -/
theorem eq_of_separate (hn : course.Named) (hs : output.Separate other) (ha : other.Above place) :
    disk'.entry? place = disk.entry? place :=
  course.changes.eq_of_separate hs (fun _ => Passage.entered_or_above hn)
    (fun _ => course.above_of_mem_written hn) ha

/-- The output of a file that was converted holds what is made of the file. -/
theorem read_of_ok (hv : disk.Vacant output) (hn : course.Named)
    (hd : ((course.steps.map (·.1)).map fun source =>
      (stageTarget stage output options source).location).Nodup)
    (hm : (source, .ok items) ∈ course.steps) (hb : disk.read source.path = .ok bytes)
    (hl : source.outputNames (options.suffix.getD stage.suffix) ≠ [manifestName]) :
    ∃ product, convert bytes = .ok product ∧ product.items = items ∧
      disk'.read (stageTarget stage output options source) = .ok product.text.toUTF8 := by
  obtain ⟨product, hp, hitems, hread⟩ := Passage.read_of_ok hv hn hd hm hb
  refine ⟨product, hp, hitems, course.closes.keeps.read hread fun hplace => hl ?_⟩
  rw [manifestPlace] at hplace
  split at hplace
  · have he := List.mem_singleton.mp hplace
    rw [stageTarget, Source.location_target (hn source (List.mem_map.mpr ⟨_, hm, rfl⟩)),
      Path.location_join output isName_manifestName, List.append_cancel_left_eq] at he
    exact he
  · cases hplace

end Course

end TreeSeq.Batch
