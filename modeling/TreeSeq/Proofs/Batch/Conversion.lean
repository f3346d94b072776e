import TreeSeq.Batch.Run
import TreeSeq.Proofs.Disk.Frame

/-!
# Converting a file

A conversion that succeeds on what a file holds comes down to saving its product; one
that fails leaves the disk as it is (`run_convertFile`). `Makes` says so of all files with
the same text.
-/

namespace TreeSeq.Batch

variable {convert : Conversion} {disk : Disk} {source target : Path} {bytes : ByteArray}

/-- What a conversion makes of the file that a path leads to. -/
def Conversion.result (convert : Conversion) (disk : Disk) (source : Path) :
    Except Error Product :=
  ((disk.read source).mapError .file).bind convert

theorem Conversion.result_of_read (h : disk.read source = .ok bytes) :
    convert.result disk source = convert bytes := by
  rw [result, h]
  rfl

theorem run_convertFile (convert : Conversion) (disk : Disk) (source target : Path) :
    disk.run (convertFile convert source target) =
      match convert.result disk source with
      | .error e => (.error e, disk)
      | .ok product =>
        ((disk.run (Files.save target product.text)).1.map fun _ => product.items,
          (disk.run (Files.save target product.text)).2) := by
  rw [convertFile, Disk.run_bind, Disk.run_load, Conversion.result]
  cases disk.read source with
  | error fault => rfl
  | ok bytes =>
    simp only [Except.mapError, Except.bind, Disk.run_bind, Disk.run_ofExcept]
    cases convert bytes with
    | error e => rfl
    | ok product =>
      simp only
      obtain ⟨outcome, between⟩ := disk.run (Files.save target product.text)
      cases outcome <;> rfl

/-- Out of a file with this text the conversion makes a file with that one. What comes of
saving it comes of the conversion, which tells of so many items if all goes well. -/
def Makes (convert : Conversion) (text made : String) (items : Nat) : Prop :=
  ∀ (disk : Disk) (source target : Path), disk.read source = .ok text.toUTF8 →
    ∀ outcome disk', disk.run (Files.save target made) = (outcome, disk') →
      disk.run (convertFile convert source target) = (outcome.map fun _ => items, disk') ∧
        (outcome = .ok () → disk'.read target = .ok made.toUTF8)

theorem makes_of_convert {text made : String} {items : Nat}
    (h : convert text.toUTF8 = .ok ⟨made, items⟩) : Makes convert text made items := by
  intro disk source target hr outcome disk' hs
  refine ⟨?_, fun ho => ?_⟩
  · rw [run_convertFile, Conversion.result_of_read hr, h]
    simp only [hs]
  · subst ho
    exact Disk.read_of_save hs

end TreeSeq.Batch
