import TreeSeq.Disk

/-!
# Programs on a disk

`Disk.Yields program disk a disk'` says of a program that works on files that it ends
well, with `a`, and what the disk is then. Programs are put together, and so are these
statements.
-/

namespace TreeSeq.Disk

variable {α β : Type} {disk disk' : Disk}

/-- The program, started on `disk`, ends well with `a` and leaves `disk'`. -/
def Yields (program : ExceptT Error (StateM Disk) α) (disk : Disk) (a : α) (disk' : Disk) : Prop :=
  program.run.run disk = (.ok a, disk')

/-- A result that is there already leaves the disk as it is. -/
theorem yields_ofExcept_iff {found : Except Error α} {a : α} :
    Yields (ofExcept found) disk a disk' ↔ found = .ok a ∧ disk = disk' := by
  cases found with
  | error e =>
    constructor
    · rintro ⟨⟩
    · rintro ⟨⟨⟩, -⟩
  | ok b =>
    show ((Except.ok b, disk) : Except Error α × Disk) = (.ok a, disk') ↔ _
    rw [Prod.mk.injEq]

/-- One program after the other ends well just if both do. -/
theorem yields_bind_iff {program : ExceptT Error (StateM Disk) α}
    {next : α → ExceptT Error (StateM Disk) β} {b : β} :
    Yields (program >>= next) disk b disk' ↔
      ∃ a between, Yields program disk a between ∧ Yields (next a) between b disk' := by
  have hb : (program >>= next).run.run disk =
      ExceptT.bindCont next (program.run.run disk).1 (program.run.run disk).2 := rfl
  obtain ⟨found, between, hp⟩ : ∃ found between, program.run.run disk = (found, between) :=
    ⟨_, _, rfl⟩
  simp only [Yields, hb, hp]
  cases found with
  | error e =>
    constructor
    · rintro ⟨⟩
    · rintro ⟨a, between', ha, -⟩
      cases ha
  | ok a =>
    constructor
    · exact fun hn => ⟨a, between, rfl, hn⟩
    · rintro ⟨a', between', ha, hn⟩
      cases ha
      exact hn

end TreeSeq.Disk
