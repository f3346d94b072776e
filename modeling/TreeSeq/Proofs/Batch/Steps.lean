import TreeSeq.Proofs.Batch.Run
import TreeSeq.Proofs.Disk.Changes

/-!
# A batch step by step

`Converts` tells of files that are converted one after the other, each on the disk that
those before it have left, what comes of each. A batch tells the same
(`perform_convertSources`).

A step that succeeds writes its file, and otherwise none is written
(`converted_cases`). So all that is changed in the end are directories on the ways to the
outputs, and the outputs of those that succeeded (`Converts.changes`); such an output holds
what was made for it until a later step writes there once more (`Converts.read_of_ok`).
-/

namespace TreeSeq.Batch

variable {disk disk' between start last : Disk} {stage : Stage} {convert : Conversion}
  {target : Source → Path} {output : Path} {suffix : String} {source : Source}
  {sources : List Source} {items : Nat} {outcome : Except Error Nat}

/-! ## One file -/

/-- A file that is converted does not convert, and nothing happens; or what comes of saving
its product comes of it. -/
theorem converted_cases {path place : Path}
    (h : disk.run (convertFile convert path place) = (outcome, disk')) :
    (∃ e, convert.result disk path = .error e ∧ outcome = .error e ∧ disk' = disk) ∨
      ∃ product saved, convert.result disk path = .ok product ∧
        disk.run (Files.save place product.text) = (saved, disk') ∧
        outcome = saved.map fun _ => product.items := by
  rw [run_convertFile] at h
  cases hr : convert.result disk path with
  | error e =>
    simp only [hr, Prod.mk.injEq] at h
    exact .inl ⟨e, rfl, h.1.symm, h.2.symm⟩
  | ok product =>
    obtain ⟨saved, after, hs⟩ := disk.exists_run (Files.save place product.text)
    simp only [hr, hs, Prod.mk.injEq] at h
    obtain ⟨ho, rfl⟩ := h
    exact .inr ⟨product, saved, rfl, hs, ho.symm⟩

/-- A file that was converted has its product saved. -/
theorem converted_ok {path place : Path}
    (h : disk.run (convertFile convert path place) = (.ok items, disk')) :
    ∃ product, convert.result disk path = .ok product ∧ product.items = items ∧
      disk.Yields (Files.save place product.text) () disk' := by
  obtain ⟨e, -, ho, -⟩ | ⟨product, saved, hr, hs, ho⟩ := converted_cases h
  · cases ho
  · cases saved with
    | error e => cases ho
    | ok _ =>
      cases ho
      exact ⟨product, hr, rfl, hs⟩

/-- Converting a file makes directories on the way to its output, and writes the output if
it succeeds. -/
theorem changes_of_convertFile {path place : Path}
    (h : disk.run (convertFile convert path place) = (outcome, disk')) :
    disk.Changes disk' place.way (if outcome.isOk then [place.location] else []) := by
  obtain ⟨e, -, rfl, rfl⟩ | ⟨product, saved, -, hs, rfl⟩ := converted_cases h
  · exact .refl _ _ _
  · have hc := Disk.changes_of_save hs
    cases saved <;> exact hc

theorem wellFormed_of_convertFile {path place : Path} (hw : disk.WellFormed)
    (h : disk.run (convertFile convert path place) = (outcome, disk')) : disk'.WellFormed := by
  obtain ⟨e, -, -, rfl⟩ | ⟨product, saved, -, hs, -⟩ := converted_cases h
  · exact hw
  · exact hw.of_save hs

/-! ## Steps -/

/-- A file, and what came of it: how many items, or what went wrong. -/
abbrev Step := Source × Except Error Nat

namespace Step

variable {steps : List Step}

/-- What a manifest tells of a step. -/
def entry (stage : Stage) (target : Source → Path) (step : Step) : Manifest.Entry :=
  match step.2 with
  | .ok items => .ok stage.word step.1.path.text (target step.1).text items
  | .error e => .failed stage.word step.1.path.text e.message

/-- The path and the reason of a file that failed. -/
def failure? (step : Step) : Option (String × String) :=
  match step.2 with
  | .ok _ => none
  | .error e => some (step.1.path.text, e.message)

/-- The directories that the steps may make. -/
def ways (target : Source → Path) (steps : List Step) : List (List String) :=
  steps.flatMap fun step => (target step.1).way

/-- The files whose steps succeeded. -/
def converted (steps : List Step) : List Source :=
  (steps.filter (·.2.isOk)).map (·.1)

theorem mem_converted : source ∈ converted steps ↔ ∃ items, (source, .ok items) ∈ steps := by
  simp only [converted, List.mem_map, List.mem_filter]
  constructor
  · rintro ⟨⟨found, outcome⟩, ⟨hm, hok⟩, rfl⟩
    cases outcome with
    | error e => cases hok
    | ok items => exact ⟨items, hm⟩
  · rintro ⟨items, hm⟩
    exact ⟨_, ⟨hm, rfl⟩, rfl⟩

theorem converted_sublist (steps : List Step) :
    (converted steps).Sublist (steps.map (·.1)) :=
  List.filter_sublist.map _

/-- Files whose paths differ are converted just if their paths are not among those that
failed. -/
theorem mem_converted_iff (hd : (steps.map (·.1.path.text)).Nodup)
    (hm : source ∈ steps.map (·.1)) : source ∈ converted steps ↔
      source.path.text ∉ (steps.filterMap failure?).map (·.1) := by
  obtain ⟨⟨found, outcome⟩, hs, rfl⟩ := List.mem_map.mp hm
  rw [mem_converted]
  constructor
  · rintro ⟨items, hok⟩ hfailed
    obtain ⟨⟨text, reason⟩, hf, htext⟩ := List.mem_map.mp hfailed
    obtain ⟨⟨other, outcome'⟩, ho, hfailure⟩ := List.mem_filterMap.mp hf
    cases outcome' with
    | ok items => cases hfailure
    | error e =>
      cases hfailure
      cases List.inj_on_of_nodup_map hd ho hok htext
  · intro hfailed
    cases outcome with
    | ok items => exact ⟨items, hs⟩
    | error e =>
      have hfailure : (found.path.text, e.message) ∈ steps.filterMap failure? :=
        List.mem_filterMap.mpr ⟨_, hs, rfl⟩
      exact absurd (List.mem_map_of_mem hfailure) hfailed

/-- The outputs of the steps that succeeded. -/
def places (target : Source → Path) (steps : List Step) : List (List String) :=
  (steps.filter (·.2.isOk)).map fun step => (target step.1).location

theorem places_cons (step : Step) (rest : List Step) :
    places target (step :: rest) =
      (if step.2.isOk then [(target step.1).location] else []) ++ places target rest := by
  rw [places, List.filter_cons]
  split <;> rfl

theorem mem_places {place : List String} : place ∈ places target steps ↔
    ∃ source items, (source, .ok items) ∈ steps ∧ (target source).location = place := by
  have hp : places target steps = (converted steps).map fun source => (target source).location := by
    rw [converted, List.map_map]
    rfl
  simp only [hp, List.mem_map, mem_converted]
  constructor
  · rintro ⟨source, ⟨items, hm⟩, rfl⟩
    exact ⟨source, items, hm, rfl⟩
  · rintro ⟨source, items, hm, rfl⟩
    exact ⟨source, ⟨items, hm⟩, rfl⟩

end Step

/-- Files are converted one after the other, from the first disk to the last. -/
inductive Converts (convert : Conversion) (target : Source → Path) :
    Disk → List Step → Disk → Prop where
  | nil (disk : Disk) : Converts convert target disk [] disk
  | cons {disk between disk' : Disk} {source : Source} {outcome : Except Error Nat}
      {rest : List Step}
      (h : disk.run (convertFile convert source.path (target source)) = (outcome, between))
      (hr : Converts convert target between rest disk') :
      Converts convert target disk ((source, outcome) :: rest) disk'

/-- A batch tells of each file what came of it. -/
theorem perform_convertSources (stage : Stage) (convert : Conversion) (disk : Disk)
    (sources : List Source)
    (ht : ∀ source : Source, source.target output suffix = target source) :
    ∃ steps disk', steps.map (·.1) = sources ∧ Converts convert target disk steps disk' ∧
      disk.perform (sources.mapM (convertSource stage convert output suffix)) =
        (steps.map (Step.entry stage target), disk') := by
  induction sources generalizing disk with
  | nil => exact ⟨[], disk, rfl, .nil disk, rfl⟩
  | cons source rest ih =>
    obtain ⟨outcome, between, hrun⟩ :=
      disk.exists_run (convertFile convert source.path (target source))
    obtain ⟨steps, disk', hs, hc, hp⟩ := ih between
    refine ⟨(source, outcome) :: steps, disk', by rw [List.map_cons, hs], .cons hrun hc, ?_⟩
    rw [List.mapM_cons]
    simp only [Disk.perform_bind, perform_convertSource, ht, hrun]
    cases outcome <;> (simp only [hp]; rfl)

namespace Converts

variable {before after steps : List Step}

/-- The steps up to one, and those from there on. -/
theorem split (h : Converts convert target disk (before ++ after) disk') :
    ∃ between, Converts convert target disk before between ∧
      Converts convert target between after disk' := by
  induction before generalizing disk with
  | nil => exact ⟨disk, .nil disk, h⟩
  | cons step before ih =>
    cases h with
    | cons h hr =>
      obtain ⟨between, hb, ha⟩ := ih hr
      exact ⟨between, .cons h hb, ha⟩

/-- Steps make directories on the ways to the outputs, and write the outputs of those that
succeed. -/
theorem changes (h : Converts convert target disk steps disk') :
    disk.Changes disk' (Step.ways target steps) (Step.places target steps) := by
  induction h with
  | nil disk => exact .refl _ _ _
  | cons h _ ih =>
    rw [Step.places_cons]
    exact (changes_of_convertFile h).trans ih

theorem wellFormed (h : Converts convert target disk steps disk') (hw : disk.WellFormed) :
    disk'.WellFormed := by
  induction h with
  | nil disk => exact hw
  | cons h _ ih => exact ih (wellFormed_of_convertFile hw h)

/-- The output of a step that succeeds holds what was made of the file, unless a later step
writes there. -/
theorem read_of_ok
    (h : Converts convert target disk (before ++ (source, .ok items) :: after) disk') :
    ∃ turn product, Converts convert target disk before turn ∧
      convert.result turn source.path = .ok product ∧ product.items = items ∧
      ((target source).location ∉ Step.places target after →
        disk'.read (target source) = .ok product.text.toUTF8) := by
  obtain ⟨turn, hb, ha⟩ := h.split
  cases ha with
  | cons hs hr =>
    obtain ⟨product, hresult, hitems, hsaved⟩ := converted_ok hs
    exact ⟨turn, product, hb, hresult, hitems, fun hn =>
      hr.changes.keeps.read (Disk.read_of_save hsaved) hn⟩

end Converts

/-! ## Reports -/

namespace Report

/-- A report counts the steps that succeeded, and gives the reasons of the others. -/
theorem ofEntries_steps (stage : Stage) (target : Source → Path) (steps : List Step) :
    ofEntries (steps.map (Step.entry stage target)) =
      ⟨steps.countP (·.2.isOk), steps.filterMap Step.failure?⟩ := by
  induction steps with
  | nil => rfl
  | cons step rest ih =>
    obtain ⟨source, outcome⟩ := step
    cases outcome with
    | ok items =>
      rw [List.map_cons, List.countP_cons_of_pos (by rfl), List.filterMap_cons_none rfl]
      rw [Step.entry, ofEntries_ok, ih]
    | error e =>
      have hf : Step.failure? (source, .error e) = some (source.path.text, e.message) := rfl
      rw [List.map_cons, List.countP_cons_of_neg (by exact Bool.false_ne_true),
        List.filterMap_cons_some hf]
      rw [Step.entry, ofEntries_failed, ih]

/-- Every file is told of. -/
theorem processed_add_failed (entries : List Manifest.Entry) :
    (ofEntries entries).processed + (ofEntries entries).failed.length = entries.length := by
  induction entries with
  | nil => rfl
  | cons entry rest ih =>
    rw [ofEntries] at ih ⊢
    cases hs : entry.status with
    | ok =>
      rw [List.countP_cons_of_pos (by rw [hs]; rfl),
        List.filterMap_cons_none (by rw [failure?, hs]), List.length_cons, ← ih]
      exact Nat.succ_add _ _
    | failed =>
      rw [List.countP_cons_of_neg (by rw [hs]; exact Bool.false_ne_true),
        List.filterMap_cons_some (by rw [failure?, hs]), List.length_cons, List.length_cons, ← ih]
      rfl

end Report

end TreeSeq.Batch
