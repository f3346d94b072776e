import TreeSeq.Disk
import TreeSeq.Proofs.Fields
import TreeSeq.Proofs.Text.Words
import Mathlib.Data.List.Basic

/-!
# Paths and the locations that they name

The names of a path tell its location (`Path.location`), whatever is on the disk. If a
path leads anywhere on a disk it leads there, for reading (`read_eq_ok_iff`) as for
writing (`fileLocation_eq_ok`).
-/

namespace TreeSeq

namespace Path

/-- Where names lead from a location, as far as the names tell. -/
def walk (here : List String) : List String → List String
  | [] => here
  | part :: rest =>
    if stays part then walk here rest
    else if part == ".." then walk here.dropLast rest
    else walk (here ++ [part]) rest

/-- The location that a path names. -/
def location (path : Path) : List String :=
  walk [] path.parts

/-- The text of a path is that of its parts with slashes between them. -/
theorem ofParts_parts (path : Path) : ofParts path.parts = path := by
  have hm : path.parts.map String.toList = path.text.toList.splitOn '/' := by
    rw [parts, List.map_map]
    conv_rhs => rw [← List.map_id (path.text.toList.splitOn '/')]
    exact List.map_congr_left fun part _ => String.toList_ofList
  have ht : "/".intercalate path.parts = path.text := by
    rw [← String.toList_inj, String.toList_intercalate, hm]
    exact List.intercalate_splitOn '/'
  rw [ofParts, ht]

/-- A path whose last name is empty, but not its only one, ends in a slash. -/
theorem endsWith_of_parts {path : Path} {above : List String} (h : path.parts = above ++ [""])
    (hne : above ≠ []) : path.text.endsWith "/" = true := by
  rw [← ofParts_parts path, h, ofParts,
    String.intercalate_append_of_ne_nil hne (List.cons_ne_nil _ _), String.intercalate_singleton,
    String.append_empty]
  refine String.Slice.endsWith_string_iff.mpr ?_
  rw [String.copy_toSlice, String.toList_append]
  exact List.suffix_append _ _

/-- A name that an entry of a directory can have: it holds no slash and has no meaning of
its own in a path. -/
structure IsName (name : String) : Prop where
  noSlash : '/' ∉ name.toList
  goes : stays name = false
  ne_up : name ≠ ".."

instance (name : String) : Decidable (IsName name) :=
  decidable_of_iff ('/' ∉ name.toList ∧ stays name = false ∧ name ≠ "..")
    ⟨fun ⟨hs, hg, hu⟩ => ⟨hs, hg, hu⟩, fun ⟨hs, hg, hu⟩ => ⟨hs, hg, hu⟩⟩

theorem noSlash_of_mem_parts {path : Path} {part : String} (h : part ∈ path.parts) :
    '/' ∉ part.toList := by
  obtain ⟨piece, hp, rfl⟩ := List.mem_map.mp h
  rw [List.splitOn_eq_splitOnP] at hp
  rw [String.toList_ofList]
  exact fun hm => absurd (Text.not_of_mem_splitOnP hp _ hm) (by decide)

theorem exists_parts (path : Path) : ∃ above last, path.parts = above ++ [last] := by
  have hne : path.parts ≠ [] := by simp [parts]
  exact ⟨_, _, (List.dropLast_append_getLast hne).symm⟩

end Path

namespace Disk

variable {disk disk' : Disk} {path : Path} {location other here : List String}

/-! ## Entries -/

/-- What stands where after something is put at a location below the root. -/
theorem entry?_put (h : location ≠ []) (entry : DiskEntry) :
    entry? (disk.put location entry) other =
      if other = location then some entry else disk.entry? other := by
  unfold entry?
  by_cases ho : other = []
  · subst ho
    rw [if_neg (Ne.symm h)]
    rfl
  · have hempty : other.isEmpty = false := by simpa using ho
    rw [hempty, if_neg Bool.false_ne_true, if_neg Bool.false_ne_true, put, Fields.get?_put]
    simp only [beq_iff_eq]

/-! ## Following names -/

theorem follow_append (names others : List String) :
    disk.follow here (names ++ others) =
      (disk.follow here names).bind fun there => disk.follow there others := by
  induction names generalizing here with
  | nil => rfl
  | cons part rest ih =>
    rw [List.cons_append, follow, follow]
    cases disk.entry? here with
    | none => rfl
    | some entry =>
      cases entry with
      | file bytes => rfl
      | directory =>
        simp only [ih]
        split <;> [rfl; split <;> rfl]

/-- Names that lead somewhere lead where they say. -/
theorem walk_of_follow {names : List String} (h : disk.follow here names = .ok location) :
    Path.walk here names = location := by
  induction names generalizing here with
  | nil =>
    cases h
    rfl
  | cons part rest ih =>
    rw [follow] at h
    split at h
    · cases h
    · cases h
    · rw [Path.walk]
      split at h
      · rename_i hs
        rw [if_pos hs, ih h]
      · rename_i hs
        rw [if_neg hs]
        split at h
        · rename_i hd
          rw [if_pos hd, ih h]
        · rename_i hd
          rw [if_neg hd, ih h]

/-- A path that leads to something leads to what stands at its location. -/
theorem lookUp_eq_ok_iff {entry : DiskEntry} :
    disk.lookUp path = .ok entry ↔ path.text.isEmpty = false ∧
      disk.follow [] path.parts = .ok path.location ∧ disk.entry? path.location = some entry := by
  rw [lookUp]
  cases ht : path.text.isEmpty with
  | true => simp
  | false =>
    rw [if_neg Bool.false_ne_true]
    cases hf : disk.follow [] path.parts with
    | error fault => simp
    | ok there =>
      obtain rfl : path.location = there := walk_of_follow hf
      cases he : disk.entry? path.location <;> simp [he]

theorem read_eq_ok_iff {bytes : ByteArray} :
    disk.read path = .ok bytes ↔ path.text.isEmpty = false ∧
      disk.follow [] path.parts = .ok path.location ∧
        disk.entry? path.location = some (.file bytes) := by
  rw [← lookUp_eq_ok_iff, read]
  split <;> simp_all

theorem kind?_of_read {bytes : ByteArray} (h : disk.read path = .ok bytes) :
    disk.kind? path = some .file := by
  rw [kind?, lookUp_eq_ok_iff.mpr (read_eq_ok_iff.mp h)]

/-! ## Writing -/

/-- A file is written under the last name of its path, in the directory that the names in
front of it lead to. -/
theorem last_of_fileLocation {above : List String} {last : String}
    (h : disk.fileLocation path = .ok location) (hp : path.parts = above ++ [last]) :
    Path.IsName last ∧ ∃ there, disk.follow [] above = .ok there ∧
      disk.entry? there = some .directory ∧ location = there ++ [last] := by
  have hlast : last ≠ "" := by
    rintro rfl
    by_cases ha : above = []
    · simp [fileLocation, hp, ha] at h
    · -- a slash at the end names a directory
      have hend := Path.endsWith_of_parts hp ha
      rw [fileLocation] at h
      simp only [hend, Bool.true_or, if_true] at h
      split at h
      · cases h
      · split at h
        · cases h
        · split at h <;> cases h
  have hd : path.parts.reverse.dropWhile (· == "") = last :: above.reverse := by
    simp [hp, hlast]
  rw [fileLocation, hd] at h
  simp only [List.reverse_reverse] at h
  split at h
  · cases h
  · rename_i there hf
    split at h
    · cases h
    · cases h
    · rename_i hdir
      split at h
      · cases h
      · rename_i hguard
        cases h
        simp only [Bool.or_eq_true, beq_iff_eq, not_or] at hguard
        refine ⟨⟨?_, ?_, hguard.2⟩, there, hf, hdir, rfl⟩
        · exact Path.noSlash_of_mem_parts (hp ▸ List.mem_append_right _ List.mem_cons_self)
        · simp [Path.stays, hlast, hguard]

/-- A file is written where its path leads, under a name in a directory. -/
theorem fileLocation_eq_ok (h : disk.fileLocation path = .ok location) :
    path.text.isEmpty = false ∧ disk.follow [] path.parts = .ok location ∧
      ∃ above name, location = above ++ [name] ∧ disk.entry? above = some .directory ∧
        Path.IsName name := by
  obtain ⟨above, last, hp⟩ := path.exists_parts
  obtain ⟨hname, there, hf, hdir, rfl⟩ := last_of_fileLocation h hp
  refine ⟨?_, ?_, there, last, rfl, hdir, hname⟩
  · rw [Bool.eq_false_iff, ne_eq, String.isEmpty_iff]
    intro he
    have hparts : path.parts = [""] := by
      rw [Path.parts, he]
      rfl
    have hl := congrArg List.getLast? (hparts.symm.trans hp)
    rw [List.getLast?_concat] at hl
    have hstays := hname.goes
    rw [← Option.some.inj hl] at hstays
    cases hstays
  · rw [hp, follow_append, hf]
    show disk.follow there [last] = _
    rw [follow, hdir]
    simp [hname.goes, hname.ne_up, follow]

end Disk

end TreeSeq
