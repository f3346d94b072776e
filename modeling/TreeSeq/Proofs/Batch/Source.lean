import TreeSeq.Batch.Source
import TreeSeq.Proofs.Disk.WellFormed
import Mathlib.Data.List.Lex
import Mathlib.Data.String.Basic

/-!
# The files that a batch finds

The files of a batch stand at or below its root, each of them once, in ascending order of
the names on the way down (`pairwise_of_discover`). On a well-formed disk all of them can
be read (`exists_read_of_discover`).
-/

namespace TreeSeq

namespace Disk

variable {disk : Disk} {root : Path} {names : List String}

/-- A path leads to something just if it leads somewhere and something is there. -/
theorem kind?_isSome_iff : (disk.kind? root).isSome ↔
    root.text.isEmpty = false ∧ disk.follow [] root.parts = .ok root.location ∧
      Option.isSome ( disk.entry? root.location) := by
  have hl : (disk.kind? root).isSome ↔ ∃ entry, disk.lookUp root = .ok entry := by
    rw [kind?]
    split <;> simp_all
  rw [hl, Option.isSome_iff_exists]
  simp only [lookUp_eq_ok_iff, exists_and_left]

end Disk

namespace Batch

open Disk (Yields)

variable {disk disk' : Disk} {root : Path} {pattern : String} {sources : List Source}
  {source : Source} {names others : List String}

theorem Source.path_ofNames (root : Path) (names : List String) :
    (Source.ofNames root names).path = root.joinAll names := by
  rw [Source.ofNames]
  cases names <;> rfl

/-- A batch finds its files just if there is something at its root and the patterns are
good. -/
theorem yields_discover_iff :
    Yields (discover root pattern) disk sources disk' ↔
      disk' = disk ∧ (disk.kind? root).isSome ∧ ∃ patterns,
        Glob.parseList pattern = .ok patterns ∧
          sources = (((disk.filesBelow root).map (Source.ofNames root)).filter
            (Glob.selects patterns ·.names)).mergeSort Source.before := by
  have hk : disk.perform (Files.kind? root) = (disk.kind? root, disk) := rfl
  have hb : disk.perform (Files.filesBelow root) = (disk.filesBelow root, disk) := rfl
  rw [Disk.yields_iff_run, discover, Files.kindOf, Disk.run_bind, Disk.run_lift]
  simp only [hk]
  cases disk.kind? root with
  | none =>
    rw [Option.isNone_none, if_pos rfl]
    constructor
    · rintro ⟨⟩
    · rintro ⟨-, hnone, -⟩
      cases hnone
  | some kind =>
    rw [Option.isNone_some, if_neg Bool.false_ne_true]
    cases Glob.parseList pattern with
    | error fault =>
      constructor
      · rintro ⟨⟩
      · rintro ⟨-, -, patterns, hp, -⟩
        cases hp
    | ok patterns =>
      simp only [Disk.run_bind, Disk.run_lift, hb]
      constructor
      · rintro ⟨⟩
        exact ⟨rfl, rfl, patterns, rfl, rfl⟩
      · rintro ⟨rfl, -, _, ⟨⟩, rfl⟩
        rfl

theorem exists_names_of_discover (h : Yields (discover root pattern) disk sources disk')
    (hm : source ∈ sources) : ∃ names ∈ disk.filesBelow root, source = Source.ofNames root names := by
  obtain ⟨-, -, patterns, -, rfl⟩ := yields_discover_iff.mp h
  rw [List.mem_mergeSort, List.mem_filter, List.mem_map] at hm
  obtain ⟨⟨names, hn, rfl⟩, -⟩ := hm
  exact ⟨names, hn, rfl⟩

/-- All files that a batch finds can be read. -/
theorem exists_read_of_discover (hw : disk.WellFormed)
    (h : Yields (discover root pattern) disk sources disk') (hm : source ∈ sources) :
    ∃ bytes, disk.read source.path = .ok bytes := by
  obtain ⟨ht, hf, -⟩ := Disk.kind?_isSome_iff.mp (yields_discover_iff.mp h).2.1
  obtain ⟨names, hn, rfl⟩ := exists_names_of_discover h hm
  obtain ⟨bytes, he⟩ := (hw.mem_filesBelow_iff hf).mp hn
  obtain ⟨hj, hl⟩ := hw.follow_joinAll ht hf he
  have hp : (root.joinAll names).location = root.location ++ names := Disk.walk_of_follow hl
  rw [Source.path_ofNames]
  exact ⟨bytes, Disk.read_eq_ok_iff.mpr ⟨hj, hp ▸ hl, hp ▸ he⟩⟩

/-! ## Their order -/

/-- Two ways down to a file are not told as the same names. -/
theorem ofNames_inj (hw : disk.WellFormed) (hf : disk.follow [] root.parts = .ok root.location)
    (hn : names ∈ disk.filesBelow root) (ho : others ∈ disk.filesBelow root)
    (he : (Source.ofNames root names).names = (Source.ofNames root others).names) :
    names = others := by
  obtain ⟨bytes, hb⟩ := (hw.mem_filesBelow_iff hf).mp hn
  obtain ⟨bytes', hb'⟩ := (hw.mem_filesBelow_iff hf).mp ho
  rcases eq_or_ne names [] with rfl | hne
  · rw [List.append_nil] at hb
    exact (hw.eq_nil_of_file hb hb').symm
  · rcases eq_or_ne others [] with rfl | hne'
    · rw [List.append_nil] at hb'
      exact hw.eq_nil_of_file hb' hb
    · rwa [Source.ofNames, Source.ofNames, if_neg (by simpa using hne),
        if_neg (by simpa using hne')] at he

theorem nodup_filesBelow (disk : Disk) (root : Path) : (disk.filesBelow root).Nodup := by
  rw [Disk.filesBelow]
  split
  · rename_i top _
    rw [List.Nodup, List.pairwise_filterMap]
    have hd := List.pairwise_map.mp disk.distinct
    refine hd.imp fun {entry other} hne names hn names' hn' => ?_
    obtain ⟨bytes, rfl⟩ := Disk.below?_eq_some_iff.mp hn
    obtain ⟨bytes', rfl⟩ := Disk.below?_eq_some_iff.mp hn'
    exact fun hs => hne (by rw [hs])
  · exact List.nodup_nil

theorem sorted_before (sources : List Source) :
    (sources.mergeSort Source.before).Pairwise fun a b => a.names ≤ b.names := by
  have hb : ∀ a b : Source, Source.before a b = true ↔ a.names ≤ b.names := by
    simp [Source.before]
  refine (List.pairwise_mergeSort ?_ ?_ sources).imp (hb _ _).mp
  · intro a b c
    rw [hb, hb, hb]
    exact le_trans
  · intro a b
    rw [Bool.or_eq_true, hb, hb]
    exact le_total _ _

/-- The files of a batch stand in ascending order of the names on the way down, each
once. -/
theorem pairwise_of_discover (hw : disk.WellFormed)
    (h : Yields (discover root pattern) disk sources disk') :
    sources.Pairwise fun a b => a.names < b.names := by
  obtain ⟨-, hk, patterns, -, rfl⟩ := yields_discover_iff.mp h
  obtain ⟨-, hf, -⟩ := Disk.kind?_isSome_iff.mp hk
  have hne : ((disk.filesBelow root).map (Source.ofNames root)).Pairwise
      fun a b => a.names ≠ b.names := by
    refine List.pairwise_map.mpr ((nodup_filesBelow disk root).imp_of_mem ?_)
    exact fun hn ho hne he => hne (ofNames_inj hw hf hn ho he)
  have hperm := (hne.filter (Glob.selects patterns ·.names)).perm
    (List.mergeSort_perm _ Source.before).symm fun h => Ne.symm h
  exact (sorted_before _).imp₂ (fun _ _ => lt_of_le_of_ne) hperm

end Batch

end TreeSeq
