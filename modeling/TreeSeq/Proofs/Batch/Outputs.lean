import TreeSeq.Proofs.Batch.Schedule

/-!
# The outputs of a batch

The output of a file has the place of the file and the stem of its name, so files that
stand in one directory and have one stem share it (`location_eq_iff`). On one thread, the
output of a file that is told to be converted holds what was made of the file, unless a later
file shares it or it is one of the batch's own files (`outputs_of_run`).
-/

namespace TreeSeq.Batch

open Disk (Yields)

variable {disk disk' : Disk} {task : Task} {input output root : Path} {options : Options}
  {pattern name suffix : String} {source : Source} {sources : List Source} {report : Report}

/-! ## Names -/

theorem noSlash_stem (h : '/' ∉ name.toList) : '/' ∉ (Source.stem name).toList := by
  have hcut : ∀ suffix front, Source.cut? name suffix = some front → '/' ∉ front.toList := by
    intro suffix front hc hm
    rw [Source.cut?] at hc
    split at hc
    · cases hc
      rw [String.toList_ofList] at hm
      exact h (List.mem_of_mem_take hm)
    · cases hc
  have hplain : '/' ∉ (Path.stem name).toList := by
    show '/' ∉ (ite _ _ _ : String).toList
    split
    · exact h
    · rw [String.toList_ofList, List.mem_reverse]
      intro hm
      exact h (List.mem_reverse.mp ((List.dropWhile_sublist _).subset (List.mem_of_mem_tail hm)))
  rw [Source.stem]
  cases hf : Source.knownSuffixes.findSome? (Source.cut? name) with
  | none => exact hplain
  | some front =>
    obtain ⟨suffix, -, hc⟩ := List.exists_of_findSome?_eq_some hf
    exact hcut suffix front hc

theorem noSlash_fileName (root : Path) : '/' ∉ root.fileName.toList := by
  rw [Path.fileName]
  cases hd : root.parts.reverse.dropWhile Path.stays with
  | nil => decide
  | cons last above =>
    have hm : last ∈ root.parts.reverse.dropWhile Path.stays := hd ▸ List.mem_cons_self
    exact Path.noSlash_of_mem_parts (List.mem_reverse.mp ((List.dropWhile_sublist _).subset hm))

/-- There are names on the way down to a file that is found. -/
theorem names_of_discover (hw : disk.WellFormed)
    (h : Yields (discover root pattern) disk sources disk') (hm : source ∈ sources) :
    (∀ name ∈ source.names.dropLast, Path.IsName name) ∧
      '/' ∉ (source.names.getLastD "").toList := by
  obtain ⟨names, bytes, hb, rfl, -⟩ := (mem_discover_iff hw h).mp hm
  have hn := hw.isName_of_stands hb
  rcases List.eq_nil_or_concat names with rfl | ⟨above, last, rfl⟩
  · exact ⟨List.forall_mem_nil _, noSlash_fileName root⟩
  · rw [List.concat_eq_append, List.forall_mem_append, List.forall_mem_singleton] at hn
    have hs : (Source.ofNames root (above ++ [last])).names = above ++ [last] := by
      rw [Source.ofNames, if_neg (by simp)]
    rw [List.concat_eq_append, hs, List.dropLast_concat, List.getLastD_concat]
    exact ⟨hn.1, hn.2.noSlash⟩

/-! ## Places -/

/-- Where the output of a file is written, if it is. -/
theorem location_of_save {text : String} (hn : ∀ name ∈ source.names.dropLast, Path.IsName name)
    (hl : '/' ∉ (source.names.getLastD "").toList) (hs : '/' ∉ suffix.toList)
    (h : Yields (Files.save (source.target output suffix) text) disk () disk') :
    (source.target output suffix).location =
      output.location ++
        (source.names.dropLast ++ [Source.stem (source.names.getLastD "") ++ suffix]) := by
  have hlast : '/' ∉ (Source.stem (source.names.getLastD "") ++ suffix).toList := by
    rw [String.toList_append, List.mem_append, not_or]
    exact ⟨noSlash_stem hl, hs⟩
  rw [Source.target, Path.joinAll_concat] at h ⊢
  obtain ⟨above, hp, hwalk, -⟩ :=
    Path.exists_parts_join (output.joinAll source.names.dropLast) hlast
  have hname := Disk.isName_of_save h hp
  rw [Path.location_join _ hname, Path.location_joinAll _ hn, List.append_assoc]

/-- Files that are told to be converted share an output just if they stand in one directory
and their names have one stem. -/
theorem location_eq_iff {stage : Stage} {convert : Conversion} {opened last : Disk}
    {steps : List Step} {other : Source} {items count : Nat} (hw : disk.WellFormed)
    (hf : Yields (discover input options.pattern) disk (steps.map (·.1)) disk)
    (hc : Converts convert (stageTarget stage output options) opened steps last)
    (hs : '/' ∉ (options.suffix.getD stage.suffix).toList)
    (ha : (source, .ok items) ∈ steps) (hb : (other, .ok count) ∈ steps) :
    (stageTarget stage output options source).location =
        (stageTarget stage output options other).location ↔
      source.names.dropLast = other.names.dropLast ∧
        Source.stem (source.names.getLastD "") = Source.stem (other.names.getLastD "") := by
  have hplace : ∀ found items, (found, .ok items) ∈ steps →
      (stageTarget stage output options found).location = output.location ++
        (found.names.dropLast ++
          [Source.stem (found.names.getLastD "") ++ options.suffix.getD stage.suffix]) := by
    intro found items hm
    obtain ⟨hn, hl⟩ := names_of_discover hw hf (List.mem_map.mpr ⟨_, hm, rfl⟩)
    obtain ⟨before, after, rfl⟩ := List.append_of_mem hm
    obtain ⟨between, -, hrest⟩ := hc.split
    cases hrest with
    | cons hstep _ =>
      obtain ⟨product, -, -, hsaved⟩ := converted_ok hstep
      exact location_of_save hn hl hs hsaved
  rw [hplace source items ha, hplace other count hb, List.append_cancel_left_eq]
  constructor
  · intro he
    obtain ⟨hdir, hlast⟩ := List.append_inj' he rfl
    exact ⟨hdir, String.append_left_inj _ |>.mp (List.cons.inj hlast).1⟩
  · rintro ⟨hdir, hstem⟩
    rw [hdir, hstem]

/-! ## What outputs hold -/

/-- What the outputs of a batch hold in the end. -/
structure Held (task : Task) (input output : Path) (options : Options) (disk disk' : Disk)
    (steps : List Step) : Prop where
  found : Yields (discover input options.pattern) disk (steps.map (·.1)) disk
  /-- The output of a file that was converted holds what was made of the file when it was
  its turn, unless a later file has the same output, or it is one of the batch's own files. -/
  made : ∃ convert opened last,
    task.conversion (sequences disk (steps.map (·.1))) = .ok convert ∧
      Yields (Files.ensureDirectory output) disk () opened ∧
      Converts convert (task.target output options) opened steps last ∧
      ∀ before source items after, steps = before ++ (source, .ok items) :: after →
        ∃ turn product, Converts convert (task.target output options) opened before turn ∧
          convert.result turn source.path = .ok product ∧ product.items = items ∧
          ((task.target output options source).location ∉
              Step.places (task.target output options) after →
            (task.target output options source).location ∉ task.places output options →
            disk'.read (task.target output options source) = .ok product.text.toUTF8)
  /-- Where a suffix does not lead elsewhere, outputs are the same for files of one
  directory and one stem alone. -/
  shared : '/' ∉ (options.suffix.getD task.stage.suffix).toList →
    ∀ source items other count, (source, .ok items) ∈ steps → (other, .ok count) ∈ steps →
      ((task.target output options source).location = (task.target output options other).location ↔
        source.names.dropLast = other.names.dropLast ∧
          Source.stem (source.names.getLastD "") = Source.stem (other.names.getLastD ""))

/-- Two files with one stem, and two whose stems are names of files that a batch writes. -/
def twins : Disk :=
  ⟨[(["in"], .directory),
    (["in", "a.x"], .file "[\x7b\"index\":0,\"node_type\":\"ID\"\x7d]".toUTF8),
    (["in", "a.y"], .file "[]".toUTF8),
    (["in", "features.json.x"], .file "[]".toUTF8),
    (["in", "manifest.jsonl.x"], .file "[]".toUTF8)], by decide⟩

def twinSources : List Source :=
  [⟨⟨"in/a.x"⟩, ["a.x"]⟩, ⟨⟨"in/a.y"⟩, ["a.y"]⟩,
    ⟨⟨"in/features.json.x"⟩, ["features.json.x"]⟩, ⟨⟨"in/manifest.jsonl.x"⟩, ["manifest.jsonl.x"]⟩]

def twinOptions : Options :=
  ⟨"*", 1, some "", true⟩

theorem wellFormed_twins : twins.WellFormed :=
  have hin := Disk.wellFormed_empty.add [] "in" .directory rfl (by decide) rfl
  have htwins := (hin.add ["in"] "a.x" _ rfl (by decide) rfl).add ["in"] "a.y" _ rfl (by decide) rfl
  (htwins.add ["in"] "features.json.x" _ rfl (by decide) rfl).add ["in"] "manifest.jsonl.x" _ rfl
    (by decide) rfl

theorem discover_twins : Yields (discover ⟨"in"⟩ twinOptions.pattern) twins twinSources twins := by
  have hp : Glob.parseList twinOptions.pattern = .ok [[.directories, .many]] := by decide +kernel
  have hf : ((twins.filesBelow ⟨"in"⟩).map (Source.ofNames ⟨"in"⟩)).filter
      (Glob.selects [[.directories, .many]] ·.names) = twinSources := by decide +kernel
  refine yields_discover_iff.mpr ⟨rfl, by decide +kernel, _, hp, ?_⟩
  rw [hf, List.mergeSort_of_pairwise (by decide +kernel)]

theorem evaluated_twins :
    let ended := twins.run (Task.run (.vectorize .empty) ⟨"in"⟩ ⟨"out"⟩ twinOptions)
    ended.1.toOption = some ⟨4, []⟩ ∧ (ended.2.read ⟨"out/a"⟩).toOption = some "".toUTF8 ∧
      (ended.2.read ⟨"out/features.json"⟩).toOption ≠ some "".toUTF8 ∧
      (ended.2.read ⟨"out/manifest.jsonl"⟩).toOption ≠ some "".toUTF8 := by
  rw [Task.run, vectorize, Disk.run_bind,
    Disk.run_bind_of_ok (Disk.yields_iff_run.mp discover_twins), Disk.run_bind, Disk.run_lift,
    perform_observeSources]
  simp only
  rw [Disk.run_bind]
  unfold Batch.run
  rw [Disk.run_bind_of_ok (Disk.yields_iff_run.mp discover_twins)]
  decide +kernel

/-- What vectors are made of a file of these. -/
def twinProduct (source : Path) : Option Product :=
  ((Task.vectorize .empty).conversion (sequences twins twinSources)).toOption.bind fun convert =>
    (convert.result twins source).toOption

end TreeSeq.Batch
