import TreeSeq.Proofs.Disk.Frame
import Mathlib.Data.List.Induction

/-!
# Disks as file systems have them

What is below the root stands in a directory, under a name that leads down from there
(`WellFormed`). The root alone is such a disk, and file operations leave one
(`WellFormed.descend`, `WellFormed.write`).

What stands below a directory is reached by going on, with the names on the way down,
from a path that leads to the directory (`WellFormed.follow_joinAll`).
-/

namespace TreeSeq

namespace Path

theorem parts_of_noSlash {name : String} (h : '/' ∉ name.toList) : parts ⟨name⟩ = [name] := by
  rw [parts, List.splitOn_eq_singleton h, List.map_singleton, String.ofList_toList]

/-- A slash parts the names on its two sides. -/
theorem parts_append_slash (front back : String) :
    parts ⟨front ++ "/" ++ back⟩ = parts ⟨front⟩ ++ parts ⟨back⟩ := by
  have hl : (front ++ "/" ++ back).toList = front.toList ++ '/' :: back.toList := by simp
  rw [parts, hl, List.splitOn_append_cons_self, List.map_append, parts, parts]

theorem exists_eq_append_slash {path : Path} (h : path.text.endsWith "/" = true) :
    ∃ front, path.text = front ++ "/" := by
  have hs := String.Slice.endsWith_string_iff.mp h
  rw [String.copy_toSlice] at hs
  obtain ⟨front, hf⟩ := hs
  refine ⟨String.ofList front, ?_⟩
  rw [← String.toList_inj, ← hf]
  simp

theorem not_startsWith_slash {name : String} (h : '/' ∉ name.toList) :
    name.startsWith "/" = false := by
  rw [Bool.eq_false_iff, ne_eq, String.startsWith_string_iff]
  exact fun hp => h (hp.subset (by simp))

theorem IsName.not_startsWith {name : String} (h : IsName name) : name.startsWith "/" = false :=
  not_startsWith_slash h.noSlash

end Path

namespace Disk

variable {disk disk' : Disk} {path root : Path} {location top here above names : List String}
  {name : String} {entry : DiskEntry} {bytes : ByteArray}

/-! ## Going on by a name -/

/-- A name leads from a directory to what has that name there. -/
theorem follow_join (ht : root.text.isEmpty = false) (hn : Path.IsName name)
    (hf : disk.follow [] root.parts = .ok top) (hd : disk.entry? top = some .directory) :
    disk.follow [] (root.join name).parts = .ok (top ++ [name]) := by
  have hlast : disk.follow top [name] = .ok (top ++ [name]) := by
    simp [follow, hd, hn.goes, hn.ne_up]
  cases he : root.text.endsWith "/" with
  | true =>
    obtain ⟨front, hr⟩ := Path.exists_eq_append_slash he
    have hroot : root.parts = Path.parts ⟨front⟩ ++ [""] := by
      have hp := Path.parts_append_slash front ""
      rw [String.append_empty, ← hr] at hp
      exact hp
    rw [hroot, follow_append] at hf
    obtain ⟨there, hfront, hstay⟩ : ∃ there, disk.follow [] (Path.parts ⟨front⟩) = .ok there ∧
        disk.follow there [""] = .ok top := by
      cases hfr : disk.follow [] (Path.parts ⟨front⟩) with
      | error fault => simp [hfr, Except.bind] at hf
      | ok there => exact ⟨there, rfl, by simpa [hfr, Except.bind] using hf⟩
    obtain rfl : there = top := walk_of_follow hstay
    rw [Path.join, hn.not_startsWith, he, Bool.or_true, if_neg Bool.false_ne_true, if_pos rfl, hr,
      Path.parts_append_slash, Path.parts_of_noSlash hn.noSlash, follow_append, hfront]
    exact hlast
  | false =>
    rw [Path.join, hn.not_startsWith, he, ht, Bool.or_false, if_neg Bool.false_ne_true,
      if_neg Bool.false_ne_true, Path.parts_append_slash, Path.parts_of_noSlash hn.noSlash,
      follow_append, hf]
    exact hlast

theorem isEmpty_join (ht : root.text.isEmpty = false) (hn : Path.IsName name) :
    (root.join name).text.isEmpty = false := by
  rw [String.isEmpty_eq_false_iff] at ht ⊢
  rw [Path.join, hn.not_startsWith, if_neg Bool.false_ne_true]
  split <;> simp [ht]

/-! ## Well-formed disks -/

theorem below?_eq_some_iff {found : List String × DiskEntry} :
    below? top found = some names ↔ ∃ bytes, found = (top ++ names, .file bytes) := by
  obtain ⟨location, entry⟩ := found
  cases entry with
  | directory => simp [below?]
  | file bytes =>
    rw [below?]
    split
    · rename_i hp
      obtain ⟨rest, rfl⟩ := List.isPrefixOf_iff_prefix.mp hp
      simp
    · rename_i hp
      simp only [reduceCtorEq, Prod.mk.injEq, false_iff, not_exists]
      rintro found ⟨rfl, -⟩
      exact hp (List.isPrefixOf_iff_prefix.mpr (List.prefix_append _ _))

/-- What is below the root stands in a directory, under a name. -/
def WellFormed (disk : Disk) : Prop :=
  ∀ location ∈ Fields.names disk.entries, ∃ above name, location = above ++ [name] ∧
    disk.entry? above = some .directory ∧ Path.IsName name

theorem wellFormed_empty : empty.WellFormed :=
  List.forall_mem_nil _

namespace WellFormed

/-- What stands somewhere is the root or stands in a directory. -/
theorem of_stands (h : disk.WellFormed) (he : disk.entry? (above ++ [name]) = some entry) :
    disk.entry? above = some .directory ∧ Path.IsName name := by
  unfold entry? at he
  rw [if_neg (by simp)] at he
  obtain ⟨found, last, hl, hd, hn⟩ := h _ (Fields.mem_names_iff.mpr ⟨_, he⟩)
  obtain ⟨rfl, hlast⟩ := List.append_inj' hl rfl
  obtain rfl := (List.cons.inj hlast).1
  exact ⟨hd, hn⟩

theorem entry?_dropLast (h : disk.WellFormed) (he : disk.entry? location = some .directory) :
    disk.entry? location.dropLast = some .directory := by
  rcases List.eq_nil_or_concat location with rfl | ⟨above, name, rfl⟩
  · rfl
  · rw [List.concat_eq_append] at he ⊢
    rw [List.dropLast_concat]
    exact (h.of_stands he).1

/-- A file is not a directory, so nothing stands below it. -/
theorem eq_nil_of_file (h : disk.WellFormed) (hf : disk.entry? top = some (.file bytes))
    (he : disk.entry? (top ++ names) = some entry) : names = [] := by
  induction names using List.reverseRecOn generalizing entry with
  | nil => rfl
  | append_singleton init last ih =>
    rw [← List.append_assoc] at he
    have hd := (h.of_stands he).1
    rw [ih hd, List.append_nil, hf] at hd
    cases hd

theorem mem_entries_iff (h : disk.WellFormed) :
    (location, .file bytes) ∈ disk.entries ↔ disk.entry? location = some (.file bytes) := by
  rcases List.eq_nil_or_concat location with rfl | ⟨above, name, rfl⟩
  · refine ⟨fun hm => ?_, fun he => by cases he⟩
    obtain ⟨above, name, hl, -⟩ := h [] (List.mem_map.mpr ⟨_, hm, rfl⟩)
    simp at hl
  · unfold entry?
    rw [if_neg (by simp)]
    exact ⟨Fields.get?_of_mem disk.distinct, Fields.mem_of_get?⟩

/-- There are names on the way down to what stands somewhere. -/
theorem isName_of_stands (h : disk.WellFormed) (he : disk.entry? (top ++ names) = some entry) :
    ∀ name ∈ names, Path.IsName name := by
  induction names using List.reverseRecOn generalizing entry with
  | nil => exact List.forall_mem_nil _
  | append_singleton init last ih =>
    rw [← List.append_assoc] at he
    obtain ⟨hd, hn⟩ := h.of_stands he
    exact List.forall_mem_append.mpr ⟨ih hd, List.forall_mem_singleton.mpr hn⟩

/-- A path that goes on by the names on the way down leads to what stands there. -/
theorem follow_joinAll (h : disk.WellFormed) (ht : root.text.isEmpty = false)
    (hf : disk.follow [] root.parts = .ok top) (he : disk.entry? (top ++ names) = some entry) :
    (root.joinAll names).text.isEmpty = false ∧
      disk.follow [] (root.joinAll names).parts = .ok (top ++ names) := by
  induction names using List.reverseRecOn generalizing entry with
  | nil => exact ⟨ht, by rwa [List.append_nil]⟩
  | append_singleton init last ih =>
    rw [← List.append_assoc] at he ⊢
    obtain ⟨hd, hn⟩ := h.of_stands he
    obtain ⟨hi, hl⟩ := ih hd
    have hj : root.joinAll (init ++ [last]) = (root.joinAll init).join last := by
      rw [Path.joinAll, List.foldl_append]
      rfl
    rw [hj]
    exact ⟨isEmpty_join hi hn, follow_join hi hn hl hd⟩

/-- The files at or below a directory have the names on the way down to them. -/
theorem mem_filesBelow_iff (h : disk.WellFormed)
    (hr : disk.follow [] root.parts = .ok root.location) :
    names ∈ disk.filesBelow root ↔
      ∃ bytes, disk.entry? (root.location ++ names) = some (.file bytes) := by
  rw [filesBelow, hr]
  simp only [List.mem_filterMap, below?_eq_some_iff, ← h.mem_entries_iff]
  constructor
  · rintro ⟨entry, hm, bytes, rfl⟩
    exact ⟨bytes, hm⟩
  · rintro ⟨bytes, hm⟩
    exact ⟨_, hm, bytes, rfl⟩

/-! ## Operations -/

theorem put (h : disk.WellFormed) (hd : disk.entry? above = some .directory)
    (hn : Path.IsName name)
    (hk : entry = .directory ∨ disk.entry? (above ++ [name]) ≠ some .directory) :
    (disk.put (above ++ [name]) entry).WellFormed := by
  have hstays : ∀ other, disk.entry? other = some .directory →
      entry? (disk.put (above ++ [name]) entry) other = some .directory := by
    intro other ho
    rw [entry?_put (by simp)]
    split
    · rename_i he
      rcases hk with rfl | hk
      · rfl
      · exact absurd (he ▸ ho) hk
    · exact ho
  intro location hl
  rw [Disk.put, Fields.names_put] at hl
  have hcases : location ∈ Fields.names disk.entries ∨ location = above ++ [name] := by
    split at hl
    · exact .inl hl
    · exact (List.mem_append.mp hl).imp_right List.mem_singleton.mp
  rcases hcases with hl | rfl
  · obtain ⟨found, last, he, hf, hlast⟩ := h _ hl
    exact ⟨found, last, he, hstays _ hf, hlast⟩
  · exact ⟨above, name, rfl, hstays _ hd, hn⟩

/-- Something new, put into a directory under a name. -/
theorem add (h : disk.WellFormed) (above : List String) (name : String) (entry : DiskEntry)
    (hd : disk.entry? above = some .directory) (hn : Path.IsName name)
    (hnew : disk.entry? (above ++ [name]) = none) :
    (disk.put (above ++ [name]) entry).WellFormed :=
  h.put hd hn (.inr (by rw [hnew]; nofun))

/-- Making directories from a directory on. -/
theorem descend (h : disk.WellFormed) (hd : disk.entry? here = some .directory)
    (hp : ∀ part ∈ names, '/' ∉ part.toList) : (disk.descend here names).2.WellFormed := by
  induction names generalizing disk here with
  | nil => exact h
  | cons part rest ih =>
    obtain ⟨hpart, hrest⟩ := List.forall_mem_cons.mp hp
    rw [Disk.descend]
    split
    · exact ih h hd hrest
    · rename_i hs
      split
      · exact ih h (h.entry?_dropLast hd) hrest
      · rename_i hup
        have hname : Path.IsName part := ⟨hpart, by simpa using hs, by simpa using hup⟩
        simp only
        split
        · rename_i hthere
          exact ih h hthere hrest
        · exact h
        · refine ih (h.put hd hname (.inl rfl)) ?_ hrest
          rw [entry?_put (by simp), if_pos rfl]

theorem makeDirectories (h : disk.WellFormed) (path : Path) :
    (disk.makeDirectories path).2.WellFormed :=
  h.descend rfl fun _ => Path.noSlash_of_mem_parts

theorem write (h : disk.WellFormed) (hw : disk.write path bytes = .ok disk') :
    disk'.WellFormed := by
  obtain ⟨-, -, ⟨above, name, hl, hd, hn⟩, hf, rfl⟩ := write_eq_ok hw
  rw [hl] at hf ⊢
  exact h.put hd hn (.inr hf)

end WellFormed

end Disk

end TreeSeq
