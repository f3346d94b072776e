import TreeSeq.Proofs.Disk
import TreeSeq.Proofs.Disk.Locations

/-!
# What file operations leave alone

File operations take nothing away: directories stay, and a file changes only if it is
written to (`Keeps`). So a path leads where it led, and a file that is not written to
holds what it held (`Keeps.read`); one that was written holds what was written
(`read_of_save`). All that can go wrong is a fault of a file operation.
-/

namespace TreeSeq.Disk

variable {disk disk' between : Disk} {path : Path} {here location : List String}
  {written others : List (List String)}

/-- All directories are still there, and all files elsewhere than at `written` hold what
they held. -/
def Keeps (disk disk' : Disk) (written : List (List String)) : Prop :=
  ∀ location entry, disk.entry? location = some entry →
    entry = .directory ∨ location ∉ written → disk'.entry? location = some entry

namespace Keeps

theorem refl (disk : Disk) (written : List (List String)) : disk.Keeps disk written :=
  fun _ _ h _ => h

theorem trans (h : disk.Keeps between written) (h' : between.Keeps disk' others) :
    disk.Keeps disk' (written ++ others) := by
  intro location entry he hw
  rw [List.mem_append, not_or] at hw
  exact h' location entry (h location entry he (hw.imp_right And.left)) (hw.imp_right And.right)

theorem mono (h : disk.Keeps disk' written) (hs : written ⊆ others) : disk.Keeps disk' others :=
  fun location entry he hw => h location entry he (hw.imp_right fun hn hm => hn (hs hm))

/-- Names lead where they led. -/
theorem follow (h : disk.Keeps disk' written) {names : List String}
    (hf : disk.follow here names = .ok location) : disk'.follow here names = .ok location := by
  induction names generalizing here with
  | nil => exact hf
  | cons part rest ih =>
    rw [Disk.follow] at hf ⊢
    split at hf
    · cases hf
    · cases hf
    · rename_i hd
      rw [h _ _ hd (.inl rfl)]
      simp only
      split at hf
      · rename_i hs
        rw [if_pos hs, ih hf]
      · rename_i hs
        rw [if_neg hs]
        split at hf
        · rename_i hup
          rw [if_pos hup, ih hf]
        · rename_i hup
          rw [if_neg hup, ih hf]

/-- A file that is not written to holds what it held. -/
theorem read (h : disk.Keeps disk' written) {bytes : ByteArray} (hr : disk.read path = .ok bytes)
    (hn : path.location ∉ written) : disk'.read path = .ok bytes := by
  obtain ⟨ht, hf, he⟩ := read_eq_ok_iff.mp hr
  exact read_eq_ok_iff.mpr ⟨ht, h.follow hf, h _ _ he (.inr hn)⟩

end Keeps

/-! ## Operations -/

theorem keeps_put (h : location ≠ []) (hd : disk.entry? location ≠ some .directory)
    (entry : DiskEntry) : disk.Keeps (disk.put location entry) [location] := by
  intro other found he hw
  rw [entry?_put h]
  split
  · rename_i ho
    subst ho
    rcases hw with rfl | hn
    · exact absurd he hd
    · exact absurd (List.mem_singleton_self _) hn
  · exact he

theorem keeps_put_new (h : location ≠ []) (hn : disk.entry? location = none) (entry : DiskEntry) :
    disk.Keeps (disk.put location entry) [] := by
  intro other found he _
  rw [entry?_put h]
  split
  · rename_i ho
    rw [ho, hn] at he
    cases he
  · exact he

/-- Making directories changes nothing that is there. -/
theorem keeps_descend (disk : Disk) (here names : List String) :
    disk.Keeps (disk.descend here names).2 [] := by
  induction names generalizing disk here with
  | nil => exact .refl _ _
  | cons part rest ih =>
    rw [descend]
    split
    · exact ih _ _
    · split
      · exact ih _ _
      · simp only
        split
        · exact ih _ _
        · exact .refl _ _
        · rename_i hn
          exact (keeps_put_new (by simp) hn _).trans (ih _ _)

theorem write_eq_ok {bytes : ByteArray} (h : disk.write path bytes = .ok disk') :
    path.text.isEmpty = false ∧ disk.follow [] path.parts = .ok path.location ∧
      (∃ above name, path.location = above ++ [name] ∧ disk.entry? above = some .directory ∧
        Path.IsName name) ∧
      disk.entry? path.location ≠ some .directory ∧
      disk' = disk.put path.location (.file bytes) := by
  rw [write] at h
  split at h
  · cases h
  · rename_i there hl
    obtain ⟨ht, hf, hn⟩ := fileLocation_eq_ok hl
    obtain rfl : path.location = there := walk_of_follow hf
    split at h
    · cases h
    · rename_i hd
      cases h
      exact ⟨ht, hf, hn, hd, rfl⟩

/-- What was written to a file is read from it. -/
theorem read_of_write {bytes : ByteArray} (h : disk.write path bytes = .ok disk') :
    disk'.read path = .ok bytes := by
  obtain ⟨ht, hf, ⟨above, name, hl, -⟩, hd, rfl⟩ := write_eq_ok h
  have hne : path.location ≠ [] := by simp [hl]
  refine read_eq_ok_iff.mpr ⟨ht, (keeps_put hne hd _).follow hf, ?_⟩
  rw [entry?_put hne, if_pos rfl]

theorem keeps_tryWrite (disk : Disk) (path : Path) (bytes : ByteArray) :
    disk.Keeps (disk.tryWrite path bytes).2 [path.location] := by
  rw [tryWrite]
  split
  · rename_i h
    obtain ⟨-, -, ⟨above, name, hl, -⟩, hd, rfl⟩ := write_eq_ok h
    exact keeps_put (by simp [hl]) hd _
  · exact .refl _ _

/-! ## Programs -/

section

variable {ε α β : Type} {text : String}

/-- What a program that cannot fail yields, and what the disk is then. -/
def perform (disk : Disk) (program : StateM Disk α) : α × Disk :=
  program.run disk

/-- What a program ends with, and what the disk is then. -/
def run (disk : Disk) (program : ExceptT ε (StateM Disk) α) : Except ε α × Disk :=
  disk.perform program.run

theorem perform_bind (disk : Disk) (program : StateM Disk α) (next : α → StateM Disk β) :
    disk.perform (program >>= next) =
      (disk.perform program).2.perform (next (disk.perform program).1) :=
  rfl

theorem yields_iff_run {program : ExceptT Error (StateM Disk) α} {a : α} :
    Yields program disk a disk' ↔ disk.run program = (.ok a, disk') :=
  Iff.rfl

/-- Every program ends somehow. -/
theorem exists_run (disk : Disk) (program : ExceptT ε (StateM Disk) α) :
    ∃ outcome disk', disk.run program = (outcome, disk') :=
  ⟨(disk.run program).1, (disk.run program).2, rfl⟩

/-- A program goes on with what its first part ended with, and ends where that fails. -/
theorem run_bind (disk : Disk) (program : ExceptT ε (StateM Disk) α)
    (next : α → ExceptT ε (StateM Disk) β) :
    disk.run (program >>= next) =
      match disk.run program with
      | (.ok a, between) => between.run (next a)
      | (.error e, between) => (.error e, between) := by
  have hb : disk.run (program >>= next) =
      ExceptT.bindCont next (disk.run program).1 (disk.run program).2 := rfl
  rw [hb]
  obtain ⟨found, between⟩ := disk.run program
  cases found <;> rfl

theorem run_bind_of_ok {program : ExceptT ε (StateM Disk) α}
    {next : α → ExceptT ε (StateM Disk) β} {a : α} (h : disk.run program = (.ok a, between)) :
    disk.run (program >>= next) = between.run (next a) := by
  rw [run_bind, h]

/-- A program that was put together failed in its first part, or its second went on from
there. -/
theorem run_bind_cases {program : ExceptT ε (StateM Disk) α}
    {next : α → ExceptT ε (StateM Disk) β} {outcome : Except ε β}
    (h : disk.run (program >>= next) = (outcome, disk')) :
    (∃ e, disk.run program = (.error e, disk') ∧ outcome = .error e) ∨
      ∃ a between, disk.run program = (.ok a, between) ∧
        between.run (next a) = (outcome, disk') := by
  obtain ⟨found, between, hp⟩ := disk.exists_run program
  rw [run_bind, hp] at h
  cases found with
  | error e =>
    cases h
    exact .inl ⟨e, hp, rfl⟩
  | ok a => exact .inr ⟨a, between, hp, h⟩

theorem run_ofExcept (disk : Disk) (found : Except ε α) :
    disk.run (ofExcept (m := ExceptT ε (StateM Disk)) found) = (found, disk) := by
  cases found <;> rfl

theorem run_lift (disk : Disk) (program : StateM Disk α) :
    disk.run (ExceptT.lift program : ExceptT ε (StateM Disk) α) =
      (.ok (disk.perform program).1, (disk.perform program).2) :=
  rfl

/-- A program made of a file operation ends as the operation does. -/
theorem run_orStop (operation : StateM Disk (Except FileFault α)) (disk : Disk) :
    disk.run (Files.orStop operation) =
      ((disk.perform operation).1.mapError .file, (disk.perform operation).2) := by
  rw [run, Files.orStop, ExceptT.run_mk, perform_bind]
  cases (disk.perform operation).1 <;> rfl

/-- All that can go wrong is a fault of the operation. -/
theorem exists_fault_of_orStop {operation : StateM Disk (Except FileFault α)} {e : Error}
    (h : disk.run (Files.orStop operation) = (.error e, disk')) : ∃ fault, e = .file fault := by
  rw [run_orStop] at h
  cases ho : (disk.perform operation).1 with
  | ok value =>
    rw [ho] at h
    cases h
  | error fault =>
    rw [ho] at h
    cases h
    exact ⟨fault, rfl⟩

theorem run_ensureDirectory (disk : Disk) (path : Path) :
    disk.run (Files.ensureDirectory path) =
      ((disk.makeDirectories path).1.mapError .file, (disk.makeDirectories path).2) :=
  run_orStop _ disk

theorem run_overwrite (disk : Disk) (path : Path) (text : String) :
    disk.run (Files.overwrite path text) =
      ((disk.tryWrite path text.toUTF8).1.mapError .file, (disk.tryWrite path text.toUTF8).2) :=
  run_orStop _ disk

theorem run_load (disk : Disk) (path : Path) :
    disk.run (Files.load path) = ((disk.read path).mapError .file, disk) :=
  run_orStop _ disk

theorem run_loadRecords {bytes : ByteArray} (h : disk.read path = .ok bytes) :
    disk.run (Files.loadRecords path) = (.ok bytes, disk) := by
  have hr : disk.perform (Files.read path) = (disk.read path, disk) := rfl
  rw [run, Files.loadRecords, ExceptT.run_mk, perform_bind, hr, h]
  rfl

theorem run_adapt {ε' : Type} (disk : Disk) (f : ε → ε') (program : ExceptT ε (StateM Disk) α) :
    disk.run (program.adapt f) = ((disk.run program).1.mapError f, (disk.run program).2) :=
  rfl

theorem run_adapt_eq_ok_iff {ε' : Type} {f : ε → ε'} {program : ExceptT ε (StateM Disk) α} {a : α} :
    disk.run (program.adapt f) = (.ok a, disk') ↔ disk.run program = (.ok a, disk') := by
  rw [run_adapt]
  obtain ⟨_ | b, last⟩ := disk.run program <;> simp [Except.mapError]

theorem run_adapt_eq_error_iff {ε' : Type} {f : ε → ε'} {program : ExceptT ε (StateM Disk) α}
    {e' : ε'} :
    disk.run (program.adapt f) = (.error e', disk') ↔
      ∃ e, disk.run program = (.error e, disk') ∧ f e = e' := by
  rw [run_adapt]
  obtain ⟨e | b, last⟩ := disk.run program <;> simp [Except.mapError, and_comm]

/-! ## Writing -/

/-- Making a directory changes nothing that is there. -/
theorem keeps_of_ensureDirectory {outcome : Except Error Unit}
    (h : disk.run (Files.ensureDirectory path) = (outcome, disk')) : disk.Keeps disk' [] := by
  rw [run_ensureDirectory] at h
  cases h
  exact keeps_descend _ _ _

/-- Writing to a file changes no other one. -/
theorem keeps_of_overwrite {outcome : Except Error Unit}
    (h : disk.run (Files.overwrite path text) = (outcome, disk')) :
    disk.Keeps disk' [path.location] := by
  rw [run_overwrite] at h
  cases h
  exact keeps_tryWrite _ _ _

theorem read_of_overwrite (h : Yields (Files.overwrite path text) disk () disk') :
    disk'.read path = .ok text.toUTF8 := by
  rw [yields_iff_run, run_overwrite, tryWrite] at h
  split at h
  · rename_i hw
    cases h
    exact read_of_write hw
  · cases h

/-- Saving to a file changes no other one. -/
theorem keeps_of_save {outcome : Except Error Unit}
    (h : disk.run (Files.save path text) = (outcome, disk')) :
    disk.Keeps disk' [path.location] := by
  obtain ⟨e, hm, -⟩ | ⟨_, between, hm, hw⟩ := run_bind_cases h
  · exact (keeps_of_ensureDirectory hm).mono (List.nil_subset _)
  · exact (keeps_of_ensureDirectory hm).trans (keeps_of_overwrite hw)

/-- What was saved is read. -/
theorem read_of_save (h : Yields (Files.save path text) disk () disk') :
    disk'.read path = .ok text.toUTF8 := by
  obtain ⟨e, -, ho⟩ | ⟨_, between, -, hw⟩ := run_bind_cases h
  · cases ho
  · exact read_of_overwrite hw

theorem exists_fault_of_save {e : Error}
    (h : disk.run (Files.save path text) = (.error e, disk')) : ∃ fault, e = .file fault := by
  obtain ⟨e, hm, ho⟩ | ⟨_, between, -, hw⟩ := run_bind_cases h
  · cases ho
    exact exists_fault_of_orStop hm
  · exact exists_fault_of_orStop hw

end

end TreeSeq.Disk
