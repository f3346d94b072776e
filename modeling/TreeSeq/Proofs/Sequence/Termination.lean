import TreeSeq.Proofs.Sequence.Recursion
import Mathlib.Algebra.GroupWithZero.Nat
import Mathlib.Algebra.Order.BigOperators.Group.List
import Mathlib.Algebra.Order.Group.Nat

/-!
# Decoding ends, whatever the references

The loop that builds a tree is followed step by step, with the records for which it pushes a
frame (`Build.Ends`), and so is the scan, which starts a loop for each root (`ScanEnds`). There
is an end to every loop (`Build.exists_ends`): a step takes a record out of those that are in no
tree yet, or leaves less of what the frames have to do.

What one step does is said once (`Build.step_more`). A frame is pushed only for a record that
was in no tree, so over the whole scan there is at most one for each record; and the work of
the frames is one less after each step, apart from that of a new frame, so there is at most one
step for each record, each slot and each reference (`forest_ends`). A step fails only if it
refuses a reference (`Build.step_error`), and a refusal never reads like a root that is missing
or unfinished (`message_refusal_ne`).
-/

namespace TreeSeq

/-- How many steps a record takes: one for itself, one for each slot and one for each
reference. -/
def Record.work (record : Record) : Nat :=
  1 + record.slotRefs.length + record.children.length

namespace Sequence

theorem Frame.work_ofRecord (record : Record) : (Frame.ofRecord record).work = record.work := by
  rw [Frame.work, Record.work, Record.children, Frame.ofRecord]
  simp only
  induction record.slotRefs with
  | nil => rfl
  | cons slot rest ih =>
    rw [List.map_cons, List.foldr_cons, List.flatMap_cons, List.length_append, List.length_cons]
    omega

namespace Build

/-- What the frames of a build have left to do. -/
def work (build : Build) : Nat :=
  (build.frames.map Frame.work).sum

/-- The records of the frames that come on top of those of a build. -/
def pushed (build next : Build) : List Record :=
  (next.frames.take (next.frames.length - build.frames.length)).map (·.record)

/-- The loop that carries a build through comes to an end after some steps, with the records
for which it pushes a frame, in order, and with its result. -/
inductive Ends (table : Table) (root : Nat) :
    Build → Nat → List Record → Except Error (Node × Table) → Prop where
  | refused {build : Build} {e : Error} : build.step table root = .error e →
      Ends table root build 1 [] (.error e)
  | finished {build : Build} {tree : Node} {rest : Table} :
      build.step table root = .ok (.done tree rest) → Ends table root build 1 [] (.ok (tree, rest))
  | more {build next : Build} {steps : Nat} {records : List Record}
      {result : Except Error (Node × Table)} : build.step table root = .ok (.more next) →
      Ends table root next steps records result →
      Ends table root build (steps + 1) (build.pushed next ++ records) result

variable {table : Table} {root : Nat} {build next : Build}

/-- Every loop ends, and its result is the one of the build. -/
theorem exists_ends (table : Table) (root : Nat) (build : Build) :
    ∃ steps records, Ends table root build steps records (build.run table root) := by
  match h : build.step table root with
  | .error e =>
    rw [run_of_error h]
    exact ⟨_, _, .refused h⟩
  | .ok (.done tree rest) =>
    rw [run_of_done h]
    exact ⟨_, _, .finished h⟩
  | .ok (.more next) =>
    obtain ⟨steps, records, hn⟩ := exists_ends table root next
    rw [run_of_more h]
    exact ⟨_, _, .more h hn⟩
termination_by build.left
decreasing_by exact step_lt h

/-- What a step does that leads on. -/
structure Leads (build next : Build) : Prop where
  /-- There is still a frame. -/
  frames : next.frames ≠ []
  /-- A step is taken off the work of the frames; a new frame brings its own. -/
  work : next.work + 1 = build.work + ((build.pushed next).map Record.work).sum
  /-- A record for which a frame is pushed is in a tree from then on, and was not before. -/
  fresh : ∀ {sequence : Sequence} {placed : List Nat}, Holds build.unplaced sequence placed →
    Fresh sequence placed (build.pushed next) ∧
      Holds next.unplaced sequence ((build.pushed next).map (·.index) ++ placed)

/-- A step without a new frame takes one off the work of the frame on top, or off that of the
one below, which takes up its node. -/
theorem leads_of_unplaced {frames : List Frame} {unplaced : Table} {frame : Frame}
    {rest : List Frame} (hl : rest.length < frames.length)
    (hw : ((frame :: rest).map Frame.work).sum + 1 = (frames.map Frame.work).sum) :
    Leads ⟨frames, unplaced⟩ ⟨frame :: rest, unplaced⟩ := by
  have hp : pushed ⟨frames, unplaced⟩ ⟨frame :: rest, unplaced⟩ = [] := by
    rw [pushed, List.length_cons, Nat.sub_eq_zero_of_le hl]
    rfl
  refine ⟨List.cons_ne_nil _ _, ?_, fun hu => ?_⟩
  · rw [hp]
    exact hw
  · rw [hp]
    exact ⟨fresh_nil _ _, hu⟩

theorem step_more (h : build.step table root = .ok (.more next)) : Leads build next := by
  obtain ⟨frames, unplaced⟩ := build
  unfold step at h
  split at h
  · cases h
  rename_i frame above hf
  cases hf
  split at h
  · -- a finished node goes to the frame below
    rename_i hp
    split at h
    · cases h
    · rename_i parent rest
      cases h
      have hone : frame.work = 1 := by
        rw [Frame.work, hp]
        rfl
      refine leads_of_unplaced (Nat.lt_succ_of_lt (Nat.lt_succ_self _)) ?_
      simp only [List.map_cons, List.sum_cons, Frame.work_adopt, hone]
      omega
  · -- a slot is complete
    rename_i slot rest hp
    cases h
    have hslot : (frame.closeSlot slot rest).work + 1 = frame.work := by
      simp only [Frame.work, Frame.closeSlot, hp, List.map_cons, List.foldr_cons, List.length_nil]
      omega
    refine leads_of_unplaced (Nat.lt_succ_self _) ?_
    simp only [List.map_cons, List.sum_cons]
    omega
  · -- a reference is followed
    rename_i slot child refs rest hp
    split at h
    · rename_i record hr
      cases h
      have hpushed : pushed ⟨frame :: above, unplaced⟩
          ⟨.ofRecord record :: { frame with pending := (slot, refs) :: rest } :: above,
            unplaced.erase child⟩ = [record] := by
        simp [pushed, Frame.ofRecord]
      have hwork : Frame.work { frame with pending := (slot, refs) :: rest } + 1 = frame.work := by
        simp only [Frame.work, hp, List.map_cons, List.foldr_cons, List.length_cons]
        omega
      refine ⟨List.cons_ne_nil _ _, ?_, fun hu => ?_⟩
      · rw [hpushed, work, work]
        simp only [List.map_cons, List.sum_cons, List.map_nil, List.sum_nil, Frame.work_ofRecord]
        omega
      · obtain ⟨hm, rfl, hn⟩ := (hu child record).mp hr
        rw [hpushed]
        exact ⟨fresh_singleton.mpr ⟨hm, hn⟩, hu.erase record.index⟩
    · split at h <;> cases h

/-- A step that finishes the tree leaves the other records where they are. -/
theorem step_done {tree : Node} {rest : Table}
    (h : build.step table root = .ok (.done tree rest)) : rest = build.unplaced := by
  unfold step at h
  repeat' split at h
  all_goals cases h
  rfl

/-- With a frame on the stack, a step fails only if it refuses a reference. -/
theorem step_error {e : Error} (h : build.step table root = .error e) (hf : build.frames ≠ []) :
    ∃ parent child, e = refusal table parent child := by
  unfold step at h
  split at h
  · exact absurd ‹_› hf
  rename_i frame above _
  split at h
  · split at h <;> cases h
  · cases h
  · rename_i slot child refs rest _
    split at h
    · cases h
    · refine ⟨frame.record.index, child, ?_⟩
      rw [refusal]
      split at h <;> (cases h; simp_all)

namespace Ends

variable {steps : Nat} {records : List Record} {result : Except Error (Node × Table)}
  {sequence : Sequence} {placed : List Nat}

theorem run_eq (h : Ends table root build steps records result) :
    build.run table root = result := by
  induction h with
  | refused h => exact run_of_error h
  | finished h => exact run_of_done h
  | more h _ ih => exact (run_of_more h).trans ih

/-- A loop takes no more steps than its frames and those that it pushes have work. -/
theorem steps_le (h : Ends table root build steps records result) (hf : build.frames ≠ []) :
    steps ≤ build.work + (records.map Record.work).sum := by
  have hpos : ∀ {build : Build}, build.frames ≠ [] → 1 ≤ build.work := by
    rintro ⟨frames, unplaced⟩ hf
    obtain ⟨frame, above, rfl⟩ := List.exists_cons_of_ne_nil hf
    rw [work, List.map_cons, List.sum_cons]
    exact Nat.le_trans frame.work_pos (Nat.le_add_right _ _)
  induction h with
  | refused h => exact Nat.le_trans (hpos hf) (Nat.le_add_right _ _)
  | finished h => exact Nat.le_trans (hpos hf) (Nat.le_add_right _ _)
  | more h _ ih =>
    have hleads := step_more h
    have hwork := hleads.work
    have := ih hleads.frames
    rw [List.map_append, List.sum_append]
    omega

/-- The records for which frames are pushed were in no tree, and no two of them are the
same. -/
theorem fresh (h : Ends table root build steps records result)
    (hu : Holds build.unplaced sequence placed) : Fresh sequence placed records := by
  induction h generalizing placed with
  | refused h => exact fresh_nil _ _
  | finished h => exact fresh_nil _ _
  | more h _ ih =>
    obtain ⟨hfirst, hn⟩ := (step_more h).fresh hu
    exact fresh_append.mpr ⟨hfirst, ih hn⟩

/-- Just these records are in a tree when the tree is finished, besides those that were. -/
theorem holds (h : Ends table root build steps records result)
    (hu : Holds build.unplaced sequence placed) {tree : Node} {rest : Table}
    (hr : result = .ok (tree, rest)) :
    Holds rest sequence (records.map (·.index) ++ placed) := by
  induction h generalizing placed with
  | refused h => cases hr
  | finished h =>
    cases hr
    rw [step_done h]
    exact hu
  | more h _ ih =>
    obtain ⟨-, hn⟩ := (step_more h).fresh hu
    refine (ih hn hr).congr fun i => ?_
    simp only [List.map_append, List.mem_append]
    tauto

/-- A loop fails only if a reference is refused. -/
theorem exists_refusal (h : Ends table root build steps records result) (hf : build.frames ≠ [])
    {e : Error} (hr : result = .error e) : ∃ parent child, e = refusal table parent child := by
  induction h with
  | refused h =>
    cases hr
    exact step_error h hf
  | finished h => cases hr
  | more h _ ih => exact ih (step_more h).frames hr

end Ends

end Build

/-! ## The scan -/

/-- The scan comes to an end after some steps of the loops that it starts, with the records for
which frames are pushed and with its result. A root is scanned when it is in a tree already,
or its own frame is pushed and the loop is carried through. -/
inductive ScanEnds (table : Table) : Table → List Node → List Nat → Nat → List Record →
    Except Error (List Node) → Prop where
  | nil {unplaced : Table} {found : List Node} : ScanEnds table unplaced found [] 0 []
      (.ok found.reverse)
  | skip {unplaced : Table} {found : List Node} {root : Nat} {order : List Nat} {steps : Nat}
      {records : List Record} {result : Except Error (List Node)} :
      unplaced[root]? = none → ScanEnds table unplaced found order steps records result →
      ScanEnds table unplaced found (root :: order) steps records result
  | refused {unplaced : Table} {found : List Node} {root : Nat} {order : List Nat} {steps : Nat}
      {record : Record} {records : List Record} {e : Error} : unplaced[root]? = some record →
      Build.Ends table root ⟨[.ofRecord record], unplaced.erase root⟩ steps records (.error e) →
      ScanEnds table unplaced found (root :: order) steps (record :: records) (.error e)
  | tree {unplaced rest : Table} {found : List Node} {root : Nat} {order : List Nat}
      {steps later : Nat} {record : Record} {below after : List Record} {tree : Node}
      {result : Except Error (List Node)} : unplaced[root]? = some record →
      Build.Ends table root ⟨[.ofRecord record], unplaced.erase root⟩ steps below
        (.ok (tree, rest)) →
      ScanEnds table rest (tree :: found) order later after result →
      ScanEnds table unplaced found (root :: order) (steps + later) (record :: (below ++ after))
        result

/-- Decoding comes to an end: the records have distinct indices, and the scan of all of them
in ascending order ends. -/
def DecodingEnds (sequence : Sequence) (steps : Nat) (records : List Record)
    (result : Except Error (List Node)) : Prop :=
  ∃ table, tableFrom ∅ sequence = .ok table ∧
    ScanEnds table table [] ((sequence.map (·.index)).mergeSort (· ≤ ·)) steps records result

variable {sequence : Sequence} {table unplaced : Table} {found : List Node} {order : List Nat}

theorem exists_scanEnds (table unplaced : Table) (found : List Node) (order : List Nat) :
    ∃ steps records,
      ScanEnds table unplaced found order steps records (treesFrom table unplaced found order) := by
  induction order generalizing unplaced found with
  | nil => exact ⟨_, _, .nil⟩
  | cons root order ih =>
    rw [treesFrom, Std.HashMap.contains_eq_isSome_getElem?, treeAt]
    cases hr : unplaced[root]? with
    | none =>
      obtain ⟨steps, records, h⟩ := ih unplaced found
      exact ⟨_, _, .skip hr h⟩
    | some record =>
      obtain ⟨steps, below, hloop⟩ :=
        Build.exists_ends table root ⟨[.ofRecord record], unplaced.erase root⟩
      simp only [Option.isSome_some, if_true]
      cases hrun : Build.run table root ⟨[.ofRecord record], unplaced.erase root⟩ with
      | error e =>
        rw [hrun] at hloop
        exact ⟨_, _, .refused hr hloop⟩
      | ok built =>
        obtain ⟨tree, rest⟩ := built
        rw [hrun] at hloop
        obtain ⟨later, after, h⟩ := ih rest (tree :: found)
        exact ⟨_, _, .tree hr hloop h⟩

namespace ScanEnds

variable {steps : Nat} {records : List Record} {result : Except Error (List Node)}
  {placed : List Nat}

theorem treesFrom_eq (h : ScanEnds table unplaced found order steps records result) :
    treesFrom table unplaced found order = result := by
  induction h with
  | nil => rfl
  | skip hr _ ih =>
    rw [treesFrom, Std.HashMap.contains_eq_isSome_getElem?, hr]
    exact ih
  | refused hr hloop =>
    rw [treesFrom, Std.HashMap.contains_eq_isSome_getElem?, treeAt, hr]
    simp [hloop.run_eq]
  | tree hr hloop _ ih =>
    rw [treesFrom, Std.HashMap.contains_eq_isSome_getElem?, treeAt, hr]
    simp [hloop.run_eq, ih]

/-- The loop of a root has the work of its record and of those for which it pushes a frame. -/
theorem steps_le_of_root {root : Nat} {record : Record} {built : Except Error (Node × Table)}
    (h : Build.Ends table root ⟨[.ofRecord record], unplaced⟩ steps records built) :
    steps ≤ ((record :: records).map Record.work).sum := by
  have hle := h.steps_le (List.cons_ne_nil _ _)
  rw [Build.work, List.map_singleton, List.sum_singleton, Frame.work_ofRecord] at hle
  rw [List.map_cons, List.sum_cons]
  exact hle

theorem steps_le (h : ScanEnds table unplaced found order steps records result) :
    steps ≤ (records.map Record.work).sum := by
  induction h with
  | nil => exact Nat.le_refl 0
  | skip _ _ ih => exact ih
  | refused _ hloop => exact steps_le_of_root hloop
  | tree _ hloop _ ih =>
    have := steps_le_of_root hloop
    rw [← List.cons_append, List.map_append, List.sum_append]
    omega

/-- No two frames are for the same record. -/
theorem fresh (h : ScanEnds table unplaced found order steps records result)
    (hu : Holds unplaced sequence placed) : Fresh sequence placed records := by
  induction h generalizing placed with
  | nil => exact fresh_nil _ _
  | skip _ _ ih => exact ih hu
  | @refused unplaced _ root _ _ record records _ hr hloop =>
    obtain ⟨hm, rfl, hn⟩ := (hu _ _).mp hr
    have hbelow := hloop.fresh (hu.erase record.index)
    rw [← List.append_nil records]
    exact fresh_cons_append.mpr ⟨⟨hm, hn⟩, hbelow, fresh_nil _ _⟩
  | @tree unplaced _ _ root _ _ _ record below after _ _ hr hloop _ ih =>
    obtain ⟨hm, rfl, hn⟩ := (hu _ _).mp hr
    have hunplaced := hu.erase record.index
    exact fresh_cons_append.mpr
      ⟨⟨hm, hn⟩, hloop.fresh hunplaced, ih (hloop.holds hunplaced rfl)⟩

theorem exists_refusal (h : ScanEnds table unplaced found order steps records result) {e : Error}
    (hr : result = .error e) : ∃ parent child, e = refusal table parent child := by
  induction h with
  | nil => cases hr
  | skip _ _ ih => exact ih hr
  | refused _ hloop =>
    cases hr
    exact hloop.exists_refusal (List.cons_ne_nil _ _) rfl
  | tree _ _ _ ih => exact ih hr

end ScanEnds

/-! ## Decoding -/

/-- Distinct records have no more work than all. -/
theorem sum_work_le {records : List Record} (h : Fresh sequence [] records) :
    (records.map Record.work).sum ≤
      sequence.length + (sequence.map (·.slotRefs.length)).sum + sequence.references.length := by
  have hall : (sequence.map Record.work).sum =
      sequence.length + (sequence.map (·.slotRefs.length)).sum + sequence.references.length := by
    clear h
    induction sequence with
    | nil => rfl
    | cons record rest ih =>
      rw [references] at ih ⊢
      simp only [List.map_cons, List.sum_cons, List.length_cons, List.flatMap_cons,
        List.length_append, ih, Record.work]
      omega
  obtain ⟨part, hperm, hsub⟩ := List.subperm_of_subset h.nodup.of_map h.subset
  rw [← hall, ← (hperm.map Record.work).sum_eq]
  exact (hsub.map Record.work).sum_le_sum fun n _ => Nat.zero_le n

/-- A text starts as its first part does. -/
theorem head?_append {text : String} {c : Char} (h : text.toList.head? = some c) (more : String) :
    (text ++ more).toList.head? = some c := by
  rw [String.toList_append, List.head?_append, h]
  rfl

theorem head?_message_unknownRoot (i : Nat) :
    (SequenceFault.unknownRoot i).message.toList.head? = some 'r' := by
  have hrecord : "record ".toList.head? = some 'r' := by decide +kernel
  exact head?_append (head?_append hrecord _) _

theorem head?_message_unfinishedRoot (i : Nat) :
    (SequenceFault.unfinishedRoot i).message.toList.head? = some 'r' := by
  have hrecord : "record ".toList.head? = some 'r' := by decide +kernel
  exact head?_append (head?_append hrecord _) _

/-- The wording of a refused reference is not that of a fault which speaks of a record
first. -/
theorem message_refusal_ne (table : Table) (parent child : Nat) {fault : SequenceFault}
    (hf : fault.message.toList.head? = some 'r') :
    (refusal table parent child).message ≠ (Error.sequence fault).message := by
  intro h
  rw [refusal] at h
  split at h
  · have hindex : "index ".toList.head? = some 'i' := by decide +kernel
    have hrepeated : (SequenceFault.repeatedReference child parent).message.toList.head? =
        some 'i' := head?_append (head?_append (head?_append (head?_append hindex _) _) _) _
    have hm : (SequenceFault.repeatedReference child parent).message = fault.message :=
      (String.append_right_inj _).mp h
    rw [hm, hf] at hrepeated
    exact absurd hrepeated (by decide)
  · have hrecord : "record ".toList.head? = some 'r' := by decide +kernel
    have hmalformed : "malformed sequence: ".toList.head? = some 'm' := by decide +kernel
    have hdangling : (Error.danglingReference parent child).message.toList.head? = some 'r' :=
      head?_append (head?_append (head?_append hrecord _) _) _
    have hsequence : (Error.sequence fault).message.toList.head? = some 'm' :=
      head?_append hmalformed _
    rw [h, hsequence] at hdangling
    exact absurd hdangling (by decide)

/-- Decoding ends for all records with distinct indices, whatever they reference. On the way
there are frames for distinct records of the sequence alone, and no more steps than records,
slots and references. It fails only for a reference to no record or to one that is in a tree
already, and what it says then is never that a root is missing or is left without a tree. -/
theorem forest_ends (hd : (sequence.map (·.index)).Nodup) :
    (∃ steps records, sequence.DecodingEnds steps records sequence.forest) ∧
    (∀ steps records result, sequence.DecodingEnds steps records result →
      result = sequence.forest ∧ records ⊆ sequence ∧ (records.map (·.index)).Nodup ∧
      steps ≤ sequence.length + (sequence.map (·.slotRefs.length)).sum +
        sequence.references.length) ∧
    ∀ e, sequence.forest = .error e →
      (∃ parent child, e = .danglingReference parent child ∨
        e = .sequence (.repeatedReference child parent)) ∧
      ∀ i, e.message ≠ (Error.sequence (.unknownRoot i)).message ∧
        e.message ≠ (Error.sequence (.unfinishedRoot i)).message := by
  have h0 : Holds ∅ [] [] := fun i record => by simp
  obtain ⟨-, full, htable, hu⟩ := (tableFrom_spec sequence h0 List.nodup_nil).resolve_right
    fun h => h.1 hd
  have hforest : sequence.forest =
      treesFrom full full [] ((sequence.map (·.index)).mergeSort (· ≤ ·)) := by
    rw [forest, htable]
  obtain ⟨steps, records, hends⟩ :=
    exists_scanEnds full full [] ((sequence.map (·.index)).mergeSort (· ≤ ·))
  rw [← hforest] at hends
  refine ⟨⟨steps, records, full, htable, hends⟩, ?_, fun e he => ?_⟩
  · rintro steps records result ⟨table, ht, hscan⟩
    cases htable.symm.trans ht
    have hfresh := hscan.fresh hu
    exact ⟨hscan.treesFrom_eq.symm.trans hforest.symm, hfresh.subset, hfresh.nodup,
      Nat.le_trans hscan.steps_le (sum_work_le hfresh)⟩
  · obtain ⟨parent, child, rfl⟩ := hends.exists_refusal he
    refine ⟨⟨parent, child, ?_⟩, fun i =>
      ⟨message_refusal_ne full parent child (head?_message_unknownRoot i),
        message_refusal_ne full parent child (head?_message_unfinishedRoot i)⟩⟩
    rw [refusal]
    split
    · exact .inr rfl
    · exact .inl rfl

/-- Two records that reference each other, and one that references itself. -/
def cyclic : Sequence :=
  [⟨0, "If", [], [("iftrue", [1])], none⟩,
    ⟨1, "Compound", [], [("block_items", [0, 2])], none⟩,
    ⟨2, "Goto", [("name", .one (.text "again"))], [("target", [2])], none⟩]

/-- The loop of the record 0 gets back to it, which is refused, after at most ten steps. -/
theorem forest_ends_cyclic :
    (cyclic.map (·.index)).Nodup ∧
    cyclic.forest = .error (.sequence (.repeatedReference 0 1)) ∧
    (∃ steps records, cyclic.DecodingEnds steps records cyclic.forest ∧ records ⊆ cyclic ∧
      (records.map (·.index)).Nodup ∧ steps ≤ 10) ∧
    ∀ i, (Error.sequence (.repeatedReference 0 1)).message ≠
      (Error.sequence (.unknownRoot i)).message := by
  have hd : (cyclic.map (·.index)).Nodup := by decide
  obtain ⟨⟨steps, records, hends⟩, hall, herror⟩ := forest_ends hd
  have hf : cyclic.forest = .error (.sequence (.repeatedReference 0 1)) := by
    have hs : cyclic.mergeSort (fun a b => a.index ≤ b.index) = cyclic := by
      simp [cyclic, List.mergeSort]
    have hback : visitRefs cyclic 1 [1, 0] [0, 2] = .error (.sequence (.repeatedReference 0 1)) :=
      visitRefs_repeated rfl (by decide)
    have hdown : visitRefs cyclic 0 [0] [1] = .error (.sequence (.repeatedReference 0 1)) := by
      rw [visitRefs_descend rfl (by decide)]
      simp [visitNode, visitSlots, hback]
    rw [forest_eq_visitRoots (by decide), hs]
    rw [cyclic] at hdown ⊢
    simp [visitRoots, visitNode, visitSlots, hdown]
  obtain ⟨-, hsubset, hnodup, hle⟩ := hall steps records _ hends
  exact ⟨hd, hf, ⟨steps, records, hends, hsubset, hnodup, hle⟩, fun i => ((herror _ hf).2 i).1⟩

end Sequence

end TreeSeq
