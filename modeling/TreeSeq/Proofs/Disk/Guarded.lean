import TreeSeq.Proofs.Disk.Frame

/-!
# Programs that read before they write

A program that only reads leaves the disk as it is, whether it finds what it asks for or not
(`Settles`). A program that writes when all that it asks for is found, and not before, leaves
no trace of a failure for want of it: it fails with the disk as it was, or nothing but the
file system stops it (`Guarded`, `Guarded.outcome`).

Such programs are put together of readings (`Settles.bind`), of a reading and a program that
goes on from it (`Guarded.bind`), and of programs that nothing but the file system stops
(`FailsBy`).
-/

namespace TreeSeq.Disk

variable {ε ε' α β : Type} {disk disk' : Disk} {path : Path}

/-! ## Faults in writing -/

/-- With this error, and on this disk, a directory cannot be made or a file not be
written. -/
inductive Interrupted : Error → Disk → Prop
  | directory {disk disk' : Disk} {path : Path} {e : Error}
    (h : disk.run (Files.ensureDirectory path) = (.error e, disk')) : Interrupted e disk'
  | file {disk disk' : Disk} {path : Path} {text : String} {e : Error}
    (h : disk.run (Files.overwrite path text) = (.error e, disk')) : Interrupted e disk'

/-- All failures of a program, on whatever disk, are such faults. -/
def FailsBy (fault : ε → Disk → Prop) (program : ExceptT ε (StateM Disk) α) : Prop :=
  ∀ (disk : Disk) (e : ε) (disk' : Disk), disk.run program = (.error e, disk') → fault e disk'

namespace FailsBy

variable {fault : ε → Disk → Prop} {program : ExceptT ε (StateM Disk) α}

theorem pure (a : α) : FailsBy fault (Pure.pure a : ExceptT ε (StateM Disk) α) := by
  rintro disk e disk' ⟨⟩

theorem lift (program : StateM Disk α) :
    FailsBy fault (ExceptT.lift program : ExceptT ε (StateM Disk) α) := by
  intro disk e disk' h
  rw [run_lift] at h
  cases h

theorem bind {next : α → ExceptT ε (StateM Disk) β} (h : FailsBy fault program)
    (hn : ∀ a, FailsBy fault (next a)) : FailsBy fault (program >>= next) := by
  intro disk e disk' hr
  obtain ⟨e, hp, ho⟩ | ⟨a, between, -, hr⟩ := run_bind_cases hr
  · cases ho
    exact h disk e disk' hp
  · exact hn a between e disk' hr

theorem adapt {fault' : ε' → Disk → Prop} {f : ε → ε'} (h : FailsBy fault program)
    (hf : ∀ e disk', fault e disk' → fault' (f e) disk') : FailsBy fault' (program.adapt f) := by
  intro disk e' disk' hr
  obtain ⟨e, hp, rfl⟩ := run_adapt_eq_error_iff.mp hr
  exact hf e disk' (h disk e disk' hp)

end FailsBy

theorem failsBy_ensureDirectory (path : Path) : FailsBy Interrupted (Files.ensureDirectory path) :=
  fun _ _ _ => .directory

theorem failsBy_overwrite (path : Path) (text : String) :
    FailsBy Interrupted (Files.overwrite path text) :=
  fun _ _ _ => .file

theorem failsBy_save (path : Path) (text : String) : FailsBy Interrupted (Files.save path text) :=
  (failsBy_ensureDirectory _).bind fun _ => failsBy_overwrite path text

/-! ## Readings -/

/-- The program leaves the disk as it is: it fails for want of something, or finds something
good. -/
inductive Settles (disk : Disk) (program : ExceptT ε (StateM Disk) α) (there : Prop)
    (good : α → Prop) : Prop
  | fails {e : ε} (h : disk.run program = (.error e, disk)) (hn : ¬there)
  | finds {a : α} (h : disk.run program = (.ok a, disk)) (ht : there) (hg : good a)

namespace Settles

variable {program : ExceptT ε (StateM Disk) α} {there all : Prop} {good : α → Prop}
  {result : β → Prop}

theorem pure {a : α} (hg : good a) :
    disk.Settles (Pure.pure a : ExceptT ε (StateM Disk) α) True good :=
  .finds rfl trivial hg

theorem adapt (h : disk.Settles program there good) (f : ε → ε') :
    disk.Settles (program.adapt f) there good := by
  cases h with
  | fails h hn => exact .fails (run_adapt_eq_error_iff.mpr ⟨_, h, rfl⟩) hn
  | finds h ht hg => exact .finds (run_adapt_eq_ok_iff.mpr h) ht hg

/-- One reading after the other. -/
theorem bind {next : α → ExceptT ε (StateM Disk) β} (h : disk.Settles program there good)
    (ha : all → there) (hn : ∀ a, there → good a → disk.Settles (next a) all result) :
    disk.Settles (program >>= next) all result := by
  cases h with
  | fails h hf => exact .fails (by rw [run_bind, h]) (mt ha hf)
  | finds h ht hg =>
    cases hn _ ht hg with
    | fails h' hf => exact .fails (by rw [run_bind_of_ok h, h']) hf
    | finds h' ht' hg' => exact .finds (by rw [run_bind_of_ok h, h']) ht' hg'

/-- The same said in other words. -/
theorem imp {good' : α → Prop} (h : disk.Settles program there good) (ha : there ↔ all)
    (hg : ∀ a, good a → good' a) : disk.Settles program all good' := by
  cases h with
  | fails h hn => exact .fails h (mt ha.mpr hn)
  | finds h ht hgood => exact .finds h (ha.mp ht) (hg _ hgood)

end Settles

theorem settles_ofExcept (found : Except ε α) :
    disk.Settles (ofExcept found : ExceptT ε (StateM Disk) α) (∃ a, found = .ok a)
      (found = .ok ·) := by
  cases found with
  | error e =>
    refine .fails (disk.run_ofExcept _) ?_
    rintro ⟨a, ⟨⟩⟩
  | ok a => exact .finds (disk.run_ofExcept _) ⟨a, rfl⟩ rfl

theorem settles_kindOf (disk : Disk) (path : Path) :
    disk.Settles (Files.kindOf path) True (disk.kind? path = ·) :=
  .finds rfl trivial rfl

theorem settles_load (disk : Disk) (path : Path) :
    disk.Settles (Files.load path) (∃ bytes, disk.read path = .ok bytes)
      (disk.read path = .ok ·) := by
  have hrun := disk.run_load path
  cases hr : disk.read path with
  | error fault =>
    rw [hr] at hrun
    refine .fails hrun ?_
    rintro ⟨bytes, ⟨⟩⟩
  | ok bytes =>
    rw [hr] at hrun
    exact .finds hrun ⟨bytes, rfl⟩ rfl

theorem settles_loadRecords (disk : Disk) (path : Path) :
    disk.Settles (Files.loadRecords path) (∃ bytes, disk.read path = .ok bytes)
      (disk.read path = .ok ·) := by
  cases hr : disk.read path with
  | error fault =>
    obtain ⟨e, he⟩ : ∃ e, disk.run (Files.loadRecords path) = (.error e, disk) := by
      have hp : disk.perform (Files.read path) = (disk.read path, disk) := rfl
      rw [run, Files.loadRecords, ExceptT.run_mk, perform_bind, hp, hr]
      cases fault <;> exact ⟨_, rfl⟩
    refine .fails he ?_
    rintro ⟨bytes, ⟨⟩⟩
  | ok bytes => exact .finds (run_loadRecords hr) ⟨bytes, rfl⟩ rfl

/-- A file is loaded, and what it holds is checked. -/
theorem Settles.check {load : ExceptT Error (StateM Disk) ByteArray}
    (h : disk.Settles load (∃ bytes, disk.read path = .ok bytes) (disk.read path = .ok ·))
    (check : ByteArray → Except Error α) :
    disk.Settles (load >>= fun bytes => ofExcept (check bytes))
      (∃ bytes, disk.read path = .ok bytes ∧ ∃ a, check bytes = .ok a)
      fun a => ∃ bytes, disk.read path = .ok bytes ∧ check bytes = .ok a := by
  refine h.bind ?_ fun bytes _ hr => (settles_ofExcept _).imp ?_ fun a ha => ⟨bytes, hr, ha⟩
  · rintro ⟨bytes, hr, -⟩
    exact ⟨bytes, hr⟩
  · constructor
    · exact fun ha => ⟨bytes, hr, ha⟩
    · rintro ⟨other, ho, ha⟩
      rw [hr] at ho
      cases ho
      exact ha

/-- Readings one after the other, each of which keeps what is good. -/
theorem settles_foldlM {step : α → β → ExceptT ε (StateM Disk) α} {there : β → Prop}
    {good : α → Prop} (h : ∀ a b, good a → disk.Settles (step a b) (there b) good) (items : List β)
    {start : α} (hs : good start) :
    disk.Settles (items.foldlM step start) (∀ item ∈ items, there item) good := by
  induction items generalizing start with
  | nil => exact .finds rfl (List.forall_mem_nil _) hs
  | cons item rest ih =>
    rw [List.foldlM_cons]
    refine (h start item hs).bind (List.forall_mem_cons.mp · |>.1) fun a ha hg => ?_
    refine (ih hg).imp ?_ fun _ hgood => hgood
    rw [List.forall_mem_cons]
    exact ⟨fun hrest => ⟨ha, hrest⟩, And.right⟩

/-! ## Programs that write in the end -/

/-- If something is not there, the program fails and leaves the disk as it is; and otherwise
it fails by such a fault alone. -/
inductive Guarded (fault : ε → Disk → Prop) (disk : Disk) (program : ExceptT ε (StateM Disk) α)
    (there : Prop) : Prop
  | fails {e : ε} (h : disk.run program = (.error e, disk)) (hn : ¬there)
  | goes (h : ∀ e disk', disk.run program = (.error e, disk') → fault e disk') (ht : there)

namespace Guarded

variable {fault : ε → Disk → Prop} {program : ExceptT ε (StateM Disk) α} {there all : Prop}
  {good : α → Prop}

theorem of_failsBy (h : FailsBy fault program) (ht : there) :
    Guarded fault disk program there :=
  .goes (h disk) ht

theorem adapt {fault' : ε' → Disk → Prop} {f : ε → ε'} (h : Guarded fault disk program there)
    (hf : ∀ e disk', fault e disk' → fault' (f e) disk') :
    Guarded fault' disk (program.adapt f) there := by
  cases h with
  | fails h hn => exact .fails (run_adapt_eq_error_iff.mpr ⟨_, h, rfl⟩) hn
  | goes h ht =>
    refine .goes (fun e' disk' hr => ?_) ht
    obtain ⟨e, hp, rfl⟩ := run_adapt_eq_error_iff.mp hr
    exact hf e disk' (h e disk' hp)

theorem congr (h : Guarded fault disk program there) (ha : there ↔ all) :
    Guarded fault disk program all :=
  propext ha ▸ h

/-- A reading, and a program that goes on from it. -/
theorem bind {next : α → ExceptT ε (StateM Disk) β} (h : disk.Settles program there good)
    (ha : all → there) (hn : ∀ a, there → good a → Guarded fault disk (next a) all) :
    Guarded fault disk (program >>= next) all := by
  cases h with
  | fails h hf => exact .fails (by rw [run_bind, h]) (mt ha hf)
  | finds h ht hg =>
    cases hn _ ht hg with
    | fails h' hf => exact .fails (by rw [run_bind_of_ok h, h']) hf
    | goes h' ht' =>
      refine .goes (fun e disk' hr => ?_) ht'
      rw [run_bind_of_ok h] at hr
      exact h' e disk' hr

/-- What comes behind a program that has written. -/
theorem andThen {next : α → ExceptT ε (StateM Disk) β} (h : Guarded fault disk program there)
    (hn : ∀ a, FailsBy fault (next a)) : Guarded fault disk (program >>= next) there := by
  cases h with
  | fails h hf => exact .fails (by rw [run_bind, h]) hf
  | goes h ht =>
    refine .goes (fun e disk' hr => ?_) ht
    obtain ⟨e, hp, ho⟩ | ⟨a, between, -, hr⟩ := run_bind_cases hr
    · cases ho
      exact h e disk' hp
    · exact hn a between e disk' hr

/-- A program fails without a trace for want of something, and otherwise by a fault in
writing. -/
theorem outcome (h : Guarded fault disk program there) :
    (¬there → ∃ e, disk.run program = (.error e, disk)) ∧
      (there → ∀ e disk', disk.run program = (.error e, disk') → fault e disk') := by
  cases h with
  | fails h hn => exact ⟨fun _ => ⟨_, h⟩, fun ht => absurd ht hn⟩
  | goes h ht => exact ⟨fun hn => absurd ht hn, fun _ => h⟩

end Guarded

end TreeSeq.Disk
