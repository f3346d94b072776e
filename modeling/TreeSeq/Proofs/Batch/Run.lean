import TreeSeq.Proofs.Batch.Conversion

/-!
# Running a stage over files

Each file of a batch is converted on its own. If the files that are written are not among
those that are read, and none is written twice, what is told of a file in the end is what
the conversion makes of what it held at the start (`Told`, `told_convertSources`).

A run that no fault of a file operation disturbs tells exactly which files converted
(`Report.ofResults`), and these have been written (`ofEntries_eq_of_told`).
-/

namespace TreeSeq.Batch

open Disk (Yields)

variable {disk disk' between : Disk} {stage : Stage} {convert : Conversion} {output : Path}
  {suffix : String} {source : Source} {sources : List Source} {entry : Manifest.Entry}
  {entries : List Manifest.Entry} {result : Source → Except Error Product}
  {target : Source → Path}

/-- What an entry tells of a file: that it does not convert, that its product was saved,
or that there was a fault in saving. -/
inductive Told (stage : Stage) (result : Source → Except Error Product) (target : Source → Path)
    (disk' : Disk) : Source → Manifest.Entry → Prop
  | refused {source : Source} {e : Error} (h : result source = .error e) :
    Told stage result target disk' source (.failed stage.word source.path.text e.message)
  | made {source : Source} {product : Product} (h : result source = .ok product)
    (hr : disk'.read (target source) = .ok product.text.toUTF8) :
    Told stage result target disk' source
      (.ok stage.word source.path.text (target source).text product.items)
  | disturbed {source : Source} {product : Product} (h : result source = .ok product)
    (fault : FileFault) :
    Told stage result target disk' source
      (.failed stage.word source.path.text (Error.file fault).message)

/-- Where files are written for those that convert. -/
def written {α : Type} (result : Source → Except Error α) (target : Source → Path)
    (sources : List Source) : List (List String) :=
  (sources.filter fun source => (result source).isOk).map fun source => (target source).location

theorem mem_written {α : Type} {result : Source → Except Error α} (hm : source ∈ sources)
    (h : (result source).isOk) : (target source).location ∈ written result target sources :=
  List.mem_map.mpr ⟨source, List.mem_filter.mpr ⟨hm, h⟩, rfl⟩

theorem written_cons_of_ok {α : Type} {result : Source → Except Error α} {a : α}
    (h : result source = .ok a) (rest : List Source) :
    written result target (source :: rest) =
      (target source).location :: written result target rest := by
  rw [written, List.filter_cons_of_pos (by rw [h]; rfl)]
  rfl

theorem written_cons_of_error {α : Type} {result : Source → Except Error α} {e : Error}
    (h : result source = .error e) (rest : List Source) :
    written result target (source :: rest) = written result target rest := by
  rw [written, List.filter_cons_of_neg (by rw [h]; exact Bool.false_ne_true)]
  rfl

theorem written_map {α β : Type} (result : Source → Except Error α) (f : α → β)
    (sources : List Source) :
    written (fun source => (result source).map f) target sources =
      written result target sources := by
  have h : ∀ found : Except Error α, (found.map f).isOk = found.isOk := by
    rintro (_ | _) <;> rfl
  simp only [written, h]

/-! ## One file -/

theorem perform_convertSource (disk : Disk) (source : Source) :
    disk.perform (convertSource stage convert output suffix source) =
      match disk.run (convertFile convert source.path (source.target output suffix)) with
      | (.ok items, disk') =>
        (.ok stage.word source.path.text (source.target output suffix).text items, disk')
      | (.error e, disk') => (.failed stage.word source.path.text e.message, disk') := by
  rw [convertSource, Disk.perform_bind, ← Disk.run]
  obtain ⟨outcome, between⟩ :=
    disk.run (convertFile convert source.path (source.target output suffix))
  cases outcome <;> rfl

/-- A file that does not convert is told of, and nothing happens. -/
theorem perform_convertSource_of_error {e : Error}
    (h : convert.result disk source.path = .error e) :
    disk.perform (convertSource stage convert output suffix source) =
      (.failed stage.word source.path.text e.message, disk) := by
  rw [perform_convertSource, run_convertFile, h]

/-- A file that converts is written, or there is a fault in saving it. -/
theorem told_convertSource {product : Product}
    (h : convert.result disk source.path = .ok product) (hs : result source = .ok product)
    (ht : source.target output suffix = target source) :
    ∃ entry between,
      disk.perform (convertSource stage convert output suffix source) = (entry, between) ∧
        Told stage result target between source entry ∧
        disk.Keeps between [(target source).location] := by
  rw [perform_convertSource, ht, run_convertFile, h]
  obtain ⟨outcome, between, hrun⟩ := disk.exists_run (Files.save (target source) product.text)
  have hk := Disk.keeps_of_save hrun
  simp only [hrun]
  cases outcome with
  | ok _ => exact ⟨_, _, rfl, .made hs (Disk.read_of_save hrun), hk⟩
  | error e =>
    obtain ⟨fault, rfl⟩ := Disk.exists_fault_of_save hrun
    exact ⟨_, _, rfl, .disturbed hs fault, hk⟩

/-! ## All files -/

/-- What was told stays so while the file that was written is kept. -/
theorem Told.of_keeps {locations : List (List String)}
    (h : Told stage result target between source entry) (hk : between.Keeps disk' locations)
    (hn : (result source).isOk → (target source).location ∉ locations) :
    Told stage result target disk' source entry := by
  cases h with
  | refused h => exact .refused h
  | made h hr => exact .made h (hk.read hr (hn (by rw [h]; rfl)))
  | disturbed h fault => exact .disturbed h fault

/-- What is told of each file is what the conversion makes of what it held at the start,
as long as no file that is written is read or written once more. -/
theorem told_convertSources
    (ht : ∀ source : Source, source.target output suffix = target source)
    (hr : ∀ source ∈ sources, ∃ bytes,
      disk.read source.path = .ok bytes ∧ convert bytes = result source)
    (hi : ∀ source ∈ sources, source.path.location ∉ written result target sources)
    (hd : (written result target sources).Nodup) :
    ∃ entries disk',
      disk.perform (sources.mapM (convertSource stage convert output suffix)) =
          (entries, disk') ∧
        List.Forall₂ (Told stage result target disk') sources entries ∧
        disk.Keeps disk' (written result target sources) := by
  induction sources generalizing disk with
  | nil => exact ⟨[], disk, rfl, .nil, .refl _ _⟩
  | cons source rest ih =>
    obtain ⟨⟨bytes, hread, hconvert⟩, hrest⟩ := List.forall_mem_cons.mp hr
    obtain ⟨-, hin⟩ := List.forall_mem_cons.mp hi
    have hresult := (Conversion.result_of_read hread).trans hconvert
    rw [List.mapM_cons]
    simp only [Disk.perform_bind]
    cases hs : result source with
    | error e =>
      rw [written_cons_of_error hs] at hin hd ⊢
      obtain ⟨entries, disk', hp, htold, hk⟩ := ih hrest hin hd
      rw [perform_convertSource_of_error (hresult.trans hs), hp]
      exact ⟨_, _, rfl, .cons (.refused hs) htold, hk⟩
    | ok product =>
      rw [written_cons_of_ok hs] at hin hd ⊢
      obtain ⟨hnew, hd⟩ := List.nodup_cons.mp hd
      obtain ⟨entry, between, hfirst, htold, hk⟩ :=
        told_convertSource (hresult.trans hs) hs (ht source)
      -- what the other files hold is still there
      have hrest' : ∀ other ∈ rest, ∃ bytes,
          between.read other.path = .ok bytes ∧ convert bytes = result other := by
        intro other ho
        obtain ⟨bytes, hread, hconvert⟩ := hrest other ho
        refine ⟨bytes, hk.read hread fun hl => hin other ho ?_, hconvert⟩
        rw [List.mem_singleton.mp hl]
        exact List.mem_cons_self
      obtain ⟨entries, disk', hp, htolds, hk'⟩ := ih hrest'
        (fun other ho hl => hin other ho (List.mem_cons_of_mem _ hl)) hd
      rw [hfirst, hp]
      exact ⟨_, _, rfl, .cons (htold.of_keeps hk' fun _ => hnew) htolds, hk.trans hk'⟩

/-! ## Reports -/

namespace Report

/-- How many files gave a result, and which did not, with the reasons. -/
def ofResults {α : Type} (result : Source → Except Error α) (sources : List Source) : Report :=
  ⟨sources.countP fun source => (result source).isOk, sources.filterMap fun source =>
    match result source with
    | .ok _ => none
    | .error e => some (source.path.text, e.message)⟩

/-- No file is told to have failed for a fault of a file operation. -/
def Undisturbed (report : Report) : Prop :=
  ∀ failure ∈ report.failed, ∀ fault : FileFault, failure.2 ≠ (Error.file fault).message

theorem ofEntries_ok (word input made : String) (items : Nat) (rest : List Manifest.Entry) :
    ofEntries (.ok word input made items :: rest) =
      ⟨(ofEntries rest).processed + 1, (ofEntries rest).failed⟩ := by
  rw [ofEntries, List.countP_cons_of_pos (by rfl)]
  rfl

theorem ofEntries_failed (word input error : String) (rest : List Manifest.Entry) :
    ofEntries (.failed word input error :: rest) =
      ⟨(ofEntries rest).processed, (input, error) :: (ofEntries rest).failed⟩ := by
  rw [ofEntries, List.countP_cons_of_neg (by exact Bool.false_ne_true)]
  rfl

theorem ofResults_ok {α : Type} {result : Source → Except Error α} {a : α}
    (h : result source = .ok a) (rest : List Source) :
    ofResults result (source :: rest) =
      ⟨(ofResults result rest).processed + 1, (ofResults result rest).failed⟩ := by
  rw [ofResults, List.countP_cons_of_pos (by rw [h]; rfl), List.filterMap_cons_none (by rw [h])]
  rfl

theorem ofResults_error {α : Type} {result : Source → Except Error α} {e : Error}
    (h : result source = .error e) (rest : List Source) :
    ofResults result (source :: rest) = ⟨(ofResults result rest).processed,
      (source.path.text, e.message) :: (ofResults result rest).failed⟩ := by
  rw [ofResults, List.countP_cons_of_neg (by rw [h]; exact Bool.false_ne_true),
    List.filterMap_cons_some (by rw [h])]
  rfl

theorem ofResults_map {α β : Type} (result : Source → Except Error α) (f : α → β)
    (sources : List Source) :
    ofResults (fun source => (result source).map f) sources = ofResults result sources := by
  induction sources with
  | nil => rfl
  | cons source rest ih =>
    cases h : result source with
    | ok a => rw [ofResults_ok h, ← ih, ofResults_ok (a := f a) (by rw [h]; rfl)]
    | error e => rw [ofResults_error h, ← ih, ofResults_error (e := e) (by rw [h]; rfl)]

end Report

/-- If no fault disturbed the run, the report tells which files convert, and these have
been written. -/
theorem ofEntries_of_told (h : List.Forall₂ (Told stage result target disk') sources entries)
    (hu : (Report.ofEntries entries).Undisturbed) :
    Report.ofEntries entries = .ofResults result sources ∧
      ∀ source ∈ sources, ∀ product, result source = .ok product →
        disk'.read (target source) = .ok product.text.toUTF8 := by
  induction h with
  | nil => exact ⟨rfl, List.forall_mem_nil _⟩
  | cons htold _ ih =>
    cases htold with
    | refused hs =>
      rw [Report.ofEntries_failed] at hu ⊢
      obtain ⟨hrest, hwritten⟩ := ih (List.forall_mem_cons.mp hu).2
      rw [Report.ofResults_error hs, hrest]
      refine ⟨rfl, List.forall_mem_cons.mpr ⟨fun product hp => ?_, hwritten⟩⟩
      cases hs.symm.trans hp
    | made hs hr =>
      rw [Report.ofEntries_ok] at hu ⊢
      obtain ⟨hrest, hwritten⟩ := ih hu
      rw [Report.ofResults_ok hs, hrest]
      refine ⟨rfl, List.forall_mem_cons.mpr ⟨fun product hp => ?_, hwritten⟩⟩
      cases hs.symm.trans hp
      exact hr
    | disturbed hs fault =>
      rw [Report.ofEntries_failed] at hu
      exact absurd rfl ((List.forall_mem_cons.mp hu).1 fault)

/-! ## A stage -/

/-- Where the manifest is written, if it is wanted. -/
def manifestPlace (output : Path) (options : Options) : List (List String) :=
  if options.manifest then [(output.join manifestName).location] else []

/-- Writing the manifest, if it is wanted, leaves the report as it is. -/
theorem run_manifest {options : Options} {text : String} {report : Report}
    {outcome : Except Error Report}
    (h : disk.run (do
        if options.manifest then
          Files.overwrite (output.join manifestName) text
        return report) = (outcome, disk')) :
    (∃ fault, outcome = .error (.file fault)) ∨
      outcome = .ok report ∧ disk.Keeps disk' (manifestPlace output options) := by
  rw [manifestPlace]
  cases hm : options.manifest with
  | false =>
    rw [hm, if_neg Bool.false_ne_true] at h
    cases h
    exact .inr ⟨rfl, .refl _ _⟩
  | true =>
    rw [hm, if_pos rfl] at h
    obtain ⟨e, hw, rfl⟩ | ⟨_, between, hw, h⟩ := Disk.run_bind_cases h
    · obtain ⟨fault, rfl⟩ := Disk.exists_fault_of_orStop hw
      exact .inl ⟨fault, rfl⟩
    · cases h
      exact .inr ⟨rfl, Disk.keeps_of_overwrite hw⟩

/-- A stage ends with a fault of a file operation, or it tells of each file what the
conversion makes of it. -/
theorem run_stage {input : Path} {options : Options} {outcome : Except Error Report}
    (hs : Yields (discover input options.pattern) disk sources disk)
    (ht : ∀ source : Source, source.target output (options.suffix.getD stage.suffix) = target source)
    (hr : ∀ source ∈ sources, ∃ bytes,
      disk.read source.path = .ok bytes ∧ convert bytes = result source)
    (hi : ∀ source ∈ sources, source.path.location ∉ written result target sources)
    (hd : (written result target sources ++ manifestPlace output options).Nodup)
    (h : disk.run (run stage convert input output options) = (outcome, disk')) :
    (∃ fault, outcome = .error (.file fault)) ∨
      ∃ entries, outcome = .ok (.ofEntries entries) ∧
        List.Forall₂ (Told stage result target disk') sources entries ∧
        disk.Keeps disk' (written result target sources ++ manifestPlace output options) := by
  rw [run, Disk.run_bind_of_ok (Disk.yields_iff_run.mp hs)] at h
  obtain ⟨e, hmade, rfl⟩ | ⟨_, start, hmade, h⟩ := Disk.run_bind_cases h
  · obtain ⟨fault, rfl⟩ := Disk.exists_fault_of_orStop hmade
    exact .inl ⟨fault, rfl⟩
  have hkd := Disk.keeps_of_ensureDirectory hmade
  have hstart : ∀ source ∈ sources, ∃ bytes,
      start.read source.path = .ok bytes ∧ convert bytes = result source := by
    intro source hm
    obtain ⟨bytes, hread, hconvert⟩ := hr source hm
    exact ⟨bytes, hkd.read hread List.not_mem_nil, hconvert⟩
  obtain ⟨hdw, -, hdisjoint⟩ := List.nodup_append.mp hd
  obtain ⟨entries, between, hp, htold, hk⟩ :=
    @told_convertSources start stage convert output _ sources result target ht hstart hi hdw
  simp only [Disk.run_bind start, Disk.run_lift, hp] at h
  rcases run_manifest h with hfault | ⟨rfl, hkm⟩
  · exact .inl hfault
  · refine .inr ⟨entries, rfl, ?_, (hkd.trans hk).trans hkm⟩
    -- a file that was written is not written over by the manifest
    have hm := (List.forall₂_and_left sources entries).mpr ⟨fun _ (h : _ ∈ sources) => h, htold⟩
    exact hm.imp fun source entry ⟨hm, ht⟩ =>
      ht.of_keeps hkm fun hok hl => hdisjoint _ (mem_written hm hok) _ hl rfl

end TreeSeq.Batch
