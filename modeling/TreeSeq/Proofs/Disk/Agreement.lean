import TreeSeq.Proofs.Disk.Changes

/-!
# Disks on which the same stands everywhere

File operations find nothing else on a disk than what stands at its locations. On two disks
on which the same stands everywhere they end alike and leave the same everywhere (`Agree`),
and so do programs that are made of them (`Steady`).
-/

namespace TreeSeq.Disk

variable {α β ε : Type} {disk disk' : Disk}

/-- The same stands everywhere. -/
def Same (disk disk' : Disk) : Prop :=
  ∀ location, disk'.entry? location = disk.entry? location

theorem Same.refl (disk : Disk) : disk.Same disk :=
  fun _ => rfl

/-! ## Operations -/

theorem Same.put {location : List String} (h : disk.Same disk') (hne : location ≠ [])
    (entry : DiskEntry) : (disk.put location entry).Same (disk'.put location entry) := by
  intro other
  rw [entry?_put hne, entry?_put hne, h other]

namespace Same

theorem follow (h : disk.Same disk') (here names : List String) :
    disk'.follow here names = disk.follow here names := by
  induction names generalizing here with
  | nil => rfl
  | cons part rest ih =>
    rw [Disk.follow, Disk.follow, h here]
    simp only [ih]

theorem tryWrite (h : disk.Same disk') (path : Path) (bytes : ByteArray) :
    (disk'.tryWrite path bytes).1 = (disk.tryWrite path bytes).1 ∧
      (disk.tryWrite path bytes).2.Same (disk'.tryWrite path bytes).2 := by
  have hl : disk'.fileLocation path = disk.fileLocation path := by
    rw [fileLocation, fileLocation]
    simp only [h.follow, h _]
  rw [Disk.tryWrite, Disk.tryWrite, write, write, hl]
  cases hf : disk.fileLocation path with
  | error fault => exact ⟨rfl, h⟩
  | ok location =>
    obtain ⟨-, -, ⟨above, name, rfl, -⟩⟩ := fileLocation_eq_ok hf
    simp only [h (above ++ [name])]
    by_cases hd : disk.entry? (above ++ [name]) = some .directory
    · rw [if_pos hd, if_pos hd]
      exact ⟨rfl, h⟩
    · rw [if_neg hd, if_neg hd]
      exact ⟨rfl, h.put (by simp) _⟩

theorem descend (h : disk.Same disk') (here names : List String) :
    (disk'.descend here names).1 = (disk.descend here names).1 ∧
      (disk.descend here names).2.Same (disk'.descend here names).2 := by
  induction names generalizing disk disk' here with
  | nil => exact ⟨rfl, h⟩
  | cons part rest ih =>
    rw [Disk.descend, Disk.descend]
    split
    · exact ih h here
    split
    · exact ih h here.dropLast
    simp only [h (here ++ [part])]
    cases disk.entry? (here ++ [part]) with
    | none => exact ih (h.put (by simp) .directory) _
    | some entry =>
      cases entry with
      | file bytes => exact ⟨rfl, h⟩
      | directory => exact ih h _

end Same

/-! ## Programs -/

/-- Two runs end alike, and leave the same everywhere. -/
structure Agree (ended ended' : Except ε α × Disk) : Prop where
  outcome : ended'.1 = ended.1
  same : ended.2.Same ended'.2

/-- A program finds nothing else on a disk than what stands at its locations. -/
def Steady (program : ExceptT ε (StateM Disk) α) : Prop :=
  ∀ disk disk' : Disk, disk.Same disk' → Agree (disk.run program) (disk'.run program)

variable {program program' : ExceptT ε (StateM Disk) α} {next : α → ExceptT ε (StateM Disk) β}

theorem Agree.refl (ended : Except ε α × Disk) : Agree ended ended :=
  ⟨rfl, .refl _⟩

/-- Runs that agree may go on. -/
theorem Agree.bind (h : Agree (disk.run program) (disk'.run program'))
    (hn : ∀ a, Steady (next a)) :
    Agree (disk.run (program >>= next)) (disk'.run (program' >>= next)) := by
  rw [run_bind, run_bind]
  obtain ⟨outcome, between, hp⟩ := disk.exists_run program
  obtain ⟨outcome', between', hp'⟩ := disk'.exists_run program'
  obtain ⟨houtcome, hs⟩ := h
  rw [hp, hp'] at houtcome hs
  rw [hp, hp']
  obtain rfl : outcome' = outcome := houtcome
  cases outcome' with
  | error e => exact ⟨rfl, hs⟩
  | ok a => exact hn a between between' hs

theorem Steady.pure (a : α) : Steady (Pure.pure a : ExceptT ε (StateM Disk) α) :=
  fun _ _ hs => ⟨rfl, hs⟩

theorem Steady.bind (h : Steady program) (hn : ∀ a, Steady (next a)) : Steady (program >>= next) :=
  fun disk disk' hs => (h disk disk' hs).bind hn

theorem steady_overwrite (path : Path) (text : String) : Steady (Files.overwrite path text) := by
  intro disk disk' h
  obtain ⟨houtcome, hs⟩ := h.tryWrite path text.toUTF8
  rw [run_overwrite, run_overwrite, houtcome]
  exact ⟨rfl, hs⟩

theorem steady_ensureDirectory (path : Path) : Steady (Files.ensureDirectory path) := by
  intro disk disk' h
  obtain ⟨houtcome, hs⟩ := h.descend [] path.parts
  rw [run_ensureDirectory, run_ensureDirectory, makeDirectories, makeDirectories, houtcome]
  exact ⟨rfl, hs⟩

theorem steady_save (path : Path) (text : String) : Steady (Files.save path text) :=
  (steady_ensureDirectory path.parent).bind fun _ => steady_overwrite path text

end TreeSeq.Disk
