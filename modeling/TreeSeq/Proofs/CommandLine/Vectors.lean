import TreeSeq.CommandLine.Run
import TreeSeq.Proofs.Disk.Frame
import TreeSeq.Proofs.Features.Columns

/-!
# Vectors of a single file

Once it has read a sequence and the columns that are there (`StartsFrom`), the command
saves the vectors and the columns in their files (`run_vectorize`). If it can write them,
that is what they hold (`vectorize_eq_ok`).
-/

namespace TreeSeq.CommandLine

variable {disk disk' : Disk} {input output path : Path} {features : Option Path} {bytes : ByteArray}
  {sequence : Sequence} {existing columns : Columns} {outcome : Except Failure Told}

/-- The columns that a command goes on from: those in its feature file, or none if it has
no such file. -/
def StartsFrom (disk : Disk) (features : Option Path) (columns : Columns) : Prop :=
  match features with
  | none => columns = .empty
  | some path => (disk.kind? path = none ∧ columns = .empty) ∨
      ∃ bytes, disk.read path = .ok bytes ∧ Columns.load bytes = .ok columns

/-- No fault of a file operation in writing ends the command. -/
def Undisturbed (outcome : Except Failure Told) : Prop :=
  ∀ fault, outcome ≠ .error (.bare fault) ∧ outcome ≠ .error (.plain (.file fault))

/-! ## Reading -/

theorem run_loadSequence (hr : disk.read path = .ok bytes) (hl : Sequence.load bytes = .ok sequence) :
    disk.run (loadSequence path) = (.ok sequence, disk) := by
  rw [loadSequence, reading, Disk.run_adapt, Disk.run_bind_of_ok (Disk.run_loadRecords hr), hl,
    Disk.run_ofExcept]
  rfl

theorem run_startColumns (h : StartsFrom disk (some path) existing) :
    disk.run (plainly do
      if (← Files.kindOf path).isSome then loadColumns path else return .empty) =
        (.ok existing, disk) := by
  have hk : disk.perform (Files.kind? path) = (disk.kind? path, disk) := rfl
  rw [plainly, Disk.run_adapt, Files.kindOf, Disk.run_bind, Disk.run_lift, hk]
  rcases h with ⟨hn, rfl⟩ | ⟨bytes, hr, hl⟩
  · simp only [hn]
    rfl
  · rw [Disk.kind?_of_read hr]
    simp only [Option.isSome_some, if_true]
    rw [loadColumns, Disk.run_bind_of_ok (Disk.run_loadRecords hr), hl, Disk.run_ofExcept]
    rfl

/-- With the sequence and the columns read, the vectors and the columns are saved. -/
theorem run_vectorize (hr : disk.read input = .ok bytes) (hl : Sequence.load bytes = .ok sequence)
    (hs : StartsFrom disk features existing) :
    disk.run (vectorize input output features false) = disk.run (do
      ExceptT.adapt .ofWriting
        (Files.save output ((existing.observe sequence).vectorFile sequence))
      match features with
      | none => pure ()
      | some path => plainly (Files.save path (existing.observe sequence).save)
      return .made (toString ((existing.observe sequence).vectors sequence).length ++ " vectors (" ++
        toString (existing.observe sequence).width ++ " columns)") output) := by
  rw [vectorize, Disk.run_bind_of_ok (run_loadSequence hr hl)]
  cases features with
  | none =>
    obtain rfl : existing = .empty := hs
    simp only [pure_bind, Bool.false_eq_true, if_false, Columns.vectorFile]
  | some path =>
    simp only [Disk.run_bind_of_ok (run_startColumns hs), Bool.false_eq_true, if_false,
      Columns.vectorFile]

/-! ## Writing -/

/-- A command that is not disturbed makes the vectors and the columns, grown by the
features of the sequence. -/
theorem vectorize_eq_ok (hr : disk.read input = .ok bytes)
    (hl : Sequence.load bytes = .ok sequence) (hs : StartsFrom disk features existing)
    (hd : ∀ path ∈ features, path.location ≠ output.location)
    (h : disk.run (vectorize input output features false) = (outcome, disk'))
    (hu : Undisturbed outcome) :
    outcome = .ok (.made (toString ((existing.observe sequence).vectors sequence).length ++
        " vectors (" ++ toString (existing.observe sequence).width ++ " columns)") output) ∧
      disk'.read output = .ok ((existing.observe sequence).vectorFile sequence).toUTF8 ∧
      ∀ path ∈ features, disk'.read path = .ok (existing.observe sequence).save.toUTF8 := by
  rw [run_vectorize hr hl hs] at h
  obtain ⟨e, hmade, rfl⟩ | ⟨_, between, hmade, h⟩ := Disk.run_bind_cases h
  · obtain ⟨e, hsave, rfl⟩ := Disk.run_adapt_eq_error_iff.mp hmade
    obtain ⟨fault, rfl⟩ := Disk.exists_fault_of_save hsave
    exact absurd rfl (hu fault).1
  have hread := Disk.read_of_save (Disk.run_adapt_eq_ok_iff.mp hmade)
  cases features with
  | none =>
    cases h
    exact ⟨rfl, hread, fun path hp => by cases hp⟩
  | some path =>
    obtain ⟨e, hsaved, rfl⟩ | ⟨_, last, hsaved, h⟩ := Disk.run_bind_cases h
    · obtain ⟨e, hsave, rfl⟩ := Disk.run_adapt_eq_error_iff.mp hsaved
      obtain ⟨fault, rfl⟩ := Disk.exists_fault_of_save hsave
      exact absurd rfl (hu fault).2
    · cases h
      have hsave := Disk.run_adapt_eq_ok_iff.mp hsaved
      refine ⟨rfl, (Disk.keeps_of_save hsave).read hread fun hm => ?_, fun other ho => ?_⟩
      · exact hd path rfl (List.mem_singleton.mp hm).symm
      · cases ho
        exact Disk.read_of_save hsave

end TreeSeq.CommandLine
