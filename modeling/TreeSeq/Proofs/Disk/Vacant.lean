import TreeSeq.Proofs.Disk.Changes

/-!
# Directories to write into

A file is written if the directories on its way are there, or can be made, and no directory
stands in its place (`WellFormed.write_eq`, `WellFormed.exists_save`).

A directory to write into may be there already, as long as it is empty, or is made first
(`Vacant`). Then every file below it can be saved on its own (`Vacant.exists_save`). What is
written below one directory does not touch another, if neither is on the way to the other
(`Path.Separate`, `Vacant.of_changes`), as it is with two empty directories
(`separate_of_empty`).
-/

namespace TreeSeq

namespace Path

variable {path other root : Path} {here names place : List String} {last : String}

/-- A path that ends in a name does not end in a slash. -/
theorem not_endsWith_slash {above : List String} (h : path.parts = above ++ [last])
    (hl : last ≠ "") : path.text.endsWith "/" = false := by
  rw [Bool.eq_false_iff]
  intro he
  obtain ⟨front, hf⟩ := exists_eq_append_slash he
  have hparts := parts_append_slash front ""
  rw [String.append_empty, ← hf] at hparts
  have hlast := congrArg List.getLast? (hparts.symm.trans h)
  rw [List.getLast?_concat, show parts ⟨""⟩ = [""] from rfl, List.getLast?_concat] at hlast
  exact hl (Option.some.inj hlast).symm

/-- Where names lead is where they came from or has been entered. -/
theorem walk_prefix_or_mem (here names : List String) :
    walk here names <+: here ∨ walk here names ∈ entered here names := by
  induction names generalizing here with
  | nil => exact .inl (List.prefix_refl _)
  | cons part rest ih =>
    rw [walk, entered]
    split
    · exact ih here
    · split
      · exact (ih here.dropLast).imp_left fun h => h.trans (List.dropLast_prefix here)
      · rw [List.mem_cons]
        rcases ih (here ++ [part]) with h | h
        · rcases List.prefix_concat_iff.mp h with h | h
          · exact .inr (.inl h)
          · exact .inl h
        · exact .inr (.inr h)

theorem location_mem_entered (h : path.location ≠ []) : path.location ∈ entered [] path.parts :=
  (walk_prefix_or_mem [] path.parts).resolve_left fun hp => h (List.prefix_nil.mp hp)

/-! ## Directories that are separate -/

/-- The location is below the one that the path names. -/
def Above (path : Path) (place : List String) : Prop :=
  ∃ names, names ≠ [] ∧ place = path.location ++ names

instance (path : Path) (place : List String) : Decidable (path.Above place) :=
  decidable_of_iff (path.location <+: place ∧ path.location ≠ place) <| by
    constructor
    · rintro ⟨⟨names, rfl⟩, hne⟩
      exact ⟨names, fun hn => hne (by rw [hn, List.append_nil]), rfl⟩
    · rintro ⟨names, hn, rfl⟩
      exact ⟨List.prefix_append _ _, fun he => hn (List.append_right_eq_self.mp he.symm)⟩

/-- A path does not enter anything below where another one leads. -/
def Aside (path other : Path) : Prop :=
  ∀ place ∈ entered [] path.parts, ¬ other.Above place

/-- Two paths lead to different locations, and neither enters anything below the location of
the other. -/
structure Separate (path other : Path) : Prop where
  distinct : path.location ≠ other.location
  aside : path.Aside other
  beside : other.Aside path

theorem Separate.symm (h : path.Separate other) : other.Separate path :=
  ⟨h.distinct.symm, h.beside, h.aside⟩

theorem not_prefix_of_aside (hne : path.location ≠ other.location) (h : other.Aside path) :
    ¬ path.location <+: other.location := by
  rintro ⟨names, he⟩
  have hn : names ≠ [] := by
    rintro rfl
    exact hne (by rwa [List.append_nil] at he)
  have hother : other.location ≠ [] := by
    rw [← he]
    exact List.append_ne_nil_of_right_ne_nil _ hn
  exact h _ (location_mem_entered hother) ⟨names, hn, he.symm⟩

/-- Nothing is below both. -/
theorem Separate.not_above (h : path.Separate other) (hp : path.Above place) :
    ¬ other.Above place := by
  rintro ⟨others, -, ho⟩
  obtain ⟨names, -, rfl⟩ := hp
  have hleft : path.location <+: path.location ++ names := List.prefix_append _ _
  have hright : other.location <+: path.location ++ names := ho ▸ List.prefix_append _ _
  rcases List.prefix_or_prefix_of_prefix hleft hright with hp | hp
  · exact not_prefix_of_aside h.distinct h.beside hp
  · exact not_prefix_of_aside h.distinct.symm h.aside hp

/-! ## Files below a directory -/

theorem above_joinAll (root : Path) (hne : names ≠ []) (hn : ∀ name ∈ names, IsName name) :
    root.Above (root.joinAll names).location :=
  ⟨names, hne, location_joinAll root hn⟩

/-- The way to a file below a directory leads to the directory and on, up to the last of the
names. -/
theorem way_joinAll (root : Path) (hne : names ≠ []) (hn : ∀ name ∈ names, IsName name)
    (hm : place ∈ (root.joinAll names).way) :
    place ∈ entered [] root.parts ∨
      ∃ front, front ≠ [] ∧ front <+: names ∧ front ≠ names ∧ place = root.location ++ front := by
  obtain ⟨init, last, rfl⟩ := (List.eq_nil_or_concat names).resolve_left hne
  rw [List.concat_eq_append] at hn hm ⊢
  have hinit : ∀ name ∈ init, IsName name := (List.forall_mem_append.mp hn).1
  have hlast : IsName last := List.forall_mem_singleton.mp (List.forall_mem_append.mp hn).2
  rw [joinAll_concat, way_join _ hlast, mem_entered_joinAll hinit] at hm
  refine hm.imp_right ?_
  rintro ⟨front, hne, hp, rfl⟩
  refine ⟨front, hne, hp.trans (List.prefix_append _ _), ?_, rfl⟩
  rintro rfl
  have := hp.length_le
  rw [List.length_append, List.length_singleton] at this
  omega

end Path

namespace Disk

variable {disk disk' opened : Disk} {path other root : Path} {names above place : List String}
  {last text : String} {made written : List (List String)}

/-! ## Files that can be written -/

/-- A file is written under a name in a directory, unless a directory has the name. -/
theorem WellFormed.write_eq (hw : disk.WellFormed) (hp : path.parts = above ++ [last])
    (hn : Path.IsName last)
    (hd : ∀ place ∈ Path.entered [] above, disk.entry? place = some .directory)
    (hf : disk.entry? path.location ≠ some .directory) (bytes : ByteArray) :
    disk.write path bytes = .ok (disk.put path.location (.file bytes)) := by
  have hlast : last ≠ "" := by
    rintro rfl
    exact absurd hn.goes (by decide)
  have hdrop : path.parts.reverse.dropWhile (· == "") = last :: above.reverse := by
    simp [hp, hlast]
  have hdot : (last == "." || last == "..") = false := by
    have hgoes := hn.goes
    rw [Path.stays, Bool.or_eq_false_iff] at hgoes
    rw [hgoes.2, Bool.false_or, beq_eq_false_iff_ne]
    exact hn.ne_up
  have hlocation : path.location = Path.walk [] above ++ [last] := by
    rw [Path.location, hp, Path.walk_append, Path.walk_name hn]
  obtain ⟨hfollow, hdir⟩ := hw.follow_entered rfl hd
  have hfile : disk.fileLocation path = .ok path.location := by
    rw [fileLocation, hdrop]
    simp only [List.reverse_reverse, hfollow, hdir]
    rw [Path.not_endsWith_slash hp hlast, Bool.false_or, hdot, if_neg Bool.false_ne_true, hlocation]
  rw [Disk.write, hfile]
  simp only
  rw [if_neg hf]

theorem WellFormed.exists_overwrite (hw : disk.WellFormed) (hp : path.parts = above ++ [last])
    (hn : Path.IsName last)
    (hd : ∀ place ∈ Path.entered [] above, disk.entry? place = some .directory)
    (hf : disk.entry? path.location ≠ some .directory) (text : String) :
    ∃ disk', Yields (Files.overwrite path text) disk () disk' := by
  refine ⟨disk.put path.location (.file text.toUTF8), ?_⟩
  rw [yields_iff_run, run_overwrite, tryWrite, hw.write_eq hp hn hd hf]
  rfl

/-- A directory is made if no file is on the way. -/
theorem exists_ensureDirectory (h : ∀ place ∈ Path.entered [] path.parts, disk.NoFile place) :
    ∃ opened, Yields (Files.ensureDirectory path) disk () opened := by
  refine ⟨(disk.makeDirectories path).2, ?_⟩
  rw [yields_iff_run, run_ensureDirectory, makeDirectories_eq_ok_iff.mpr h]
  rfl

/-- Then there are directories on the way. -/
theorem directories_of_ensureDirectory (h : Yields (Files.ensureDirectory path) disk () opened) :
    ∀ place ∈ Path.entered [] path.parts, opened.entry? place = some .directory := by
  rw [yields_iff_run, run_ensureDirectory, Prod.mk.injEq] at h
  obtain ⟨hok, rfl⟩ := h
  refine directories_of_descend ?_
  cases hm : (disk.makeDirectories path).1 with
  | error fault =>
    rw [hm] at hok
    cases hok
  | ok _ => exact hm

/-- A file is saved if no file is on the way to it and no directory stands in its place, or
is made there. -/
theorem WellFormed.exists_save (hw : disk.WellFormed) (hp : path.parts = above ++ [last])
    (hn : Path.IsName last) (hway : ∀ place ∈ path.way, disk.NoFile place)
    (hplace : path.location ∉ path.way) (hf : disk.entry? path.location ≠ some .directory)
    (text : String) : ∃ disk', Yields (Files.save path text) disk () disk' := by
  rw [Path.way] at hway
  obtain ⟨opened, ho⟩ := exists_ensureDirectory hway
  have hd := directories_of_ensureDirectory ho
  have hfile : opened.entry? path.location ≠ some .directory := fun he =>
    ((changes_of_ensureDirectory ho).mem_made he).elim hf hplace
  rw [← Path.way, Path.way_of_parts hp hn.goes (List.forall_mem_nil _)] at hd
  obtain ⟨disk', h⟩ := (hw.of_ensureDirectory ho).exists_overwrite hp hn hd hfile text
  exact ⟨disk', yields_bind_iff.mpr ⟨(), opened, ho, h⟩⟩

/-! ## Vacant directories -/

/-- A directory that is empty, or that can be made. -/
structure Vacant (disk : Disk) (path : Path) : Prop where
  named : path.text.isEmpty = false
  noFile : ∀ place ∈ Path.entered [] path.parts, disk.NoFile place
  aside : path.Aside path
  empty : ∀ place, path.Above place → disk.entry? place = none

/-- Nothing stands below a directory if nothing that stands anywhere is below it. -/
theorem eq_none_of_above (h : ∀ location ∈ Fields.names disk.entries, ¬ path.Above location)
    (ha : path.Above place) : disk.entry? place = none := by
  have hne : place.isEmpty = false := by
    obtain ⟨names, hn, rfl⟩ := ha
    simpa using fun _ => hn
  rw [Disk.entry?, hne, if_neg Bool.false_ne_true]
  by_contra hsome
  obtain ⟨entry, he⟩ := Option.ne_none_iff_exists'.mp hsome
  exact h place (Fields.mem_names_iff.mpr ⟨entry, he⟩) ha

/-- Where names lead to a directory, all that they enter are directories. -/
theorem directories_of_follow {here : List String} (h : disk.follow here names = .ok place)
    (hd : disk.entry? place = some .directory) :
    ∀ other ∈ Path.entered here names, disk.entry? other = some .directory := by
  induction names generalizing here with
  | nil => exact List.forall_mem_nil _
  | cons part rest ih =>
    rw [follow] at h
    rw [Path.entered]
    split at h
    · cases h
    · cases h
    · split at h
      · rename_i hs
        rw [if_pos hs]
        exact ih h
      · rename_i hs
        rw [if_neg hs]
        split at h
        · rename_i hup
          rw [if_pos hup]
          exact ih h
        · rename_i hup
          rw [if_neg hup]
          refine List.forall_mem_cons.mpr ⟨?_, ih h⟩
          cases rest with
          | nil =>
            cases h
            exact hd
          | cons next rest =>
            rw [follow] at h
            split at h
            · cases h
            · cases h
            · assumption

/-- A path leads to a directory just if it leads somewhere and a directory is there. -/
theorem kind?_eq_directory_iff : disk.kind? path = some .directory ↔
    path.text.isEmpty = false ∧ disk.follow [] path.parts = .ok path.location ∧
      disk.entry? path.location = some .directory := by
  rw [← lookUp_eq_ok_iff, kind?]
  split <;> simp_all

/-- So it does if there are directories on its way. -/
theorem WellFormed.kind?_of_directories (hw : disk.WellFormed) (ht : path.text.isEmpty = false)
    (hd : ∀ place ∈ Path.entered [] path.parts, disk.entry? place = some .directory) :
    disk.kind? path = some .directory :=
  kind?_eq_directory_iff.mpr ⟨ht, hw.follow_entered rfl hd⟩

/-- A path to a directory enters nothing below one that is empty. -/
theorem aside_of_empty (hk : disk.kind? path = some .directory)
    (h : ∀ location ∈ Fields.names disk.entries, ¬ other.Above location) : path.Aside other := by
  obtain ⟨-, hf, hd⟩ := kind?_eq_directory_iff.mp hk
  intro place hm ha
  have hdir := directories_of_follow hf hd place hm
  rw [eq_none_of_above h ha] at hdir
  cases hdir

/-- An empty directory is vacant. -/
theorem vacant_of_empty (hk : disk.kind? path = some .directory)
    (h : ∀ location ∈ Fields.names disk.entries, ¬ path.Above location) : disk.Vacant path := by
  obtain ⟨ht, hf, hd⟩ := kind?_eq_directory_iff.mp hk
  refine ⟨ht, fun place hm bytes hb => ?_, aside_of_empty hk h, fun _ => eq_none_of_above h⟩
  rw [directories_of_follow hf hd place hm] at hb
  cases hb

/-- Two empty directories are separate, if they are not one. -/
theorem separate_of_empty (hk : disk.kind? path = some .directory)
    (h : ∀ location ∈ Fields.names disk.entries, ¬ path.Above location)
    (hk' : disk.kind? other = some .directory)
    (h' : ∀ location ∈ Fields.names disk.entries, ¬ other.Above location)
    (hne : path.location ≠ other.location) : path.Separate other :=
  ⟨hne, aside_of_empty hk h', aside_of_empty hk' h⟩

namespace Vacant

/-- A vacant directory is empty once it is made. -/
theorem empty_of_ensureDirectory (h : disk.Vacant path)
    (ho : Yields (Files.ensureDirectory path) disk () opened) (ha : path.Above place) :
    opened.entry? place = none := by
  have hc := changes_of_ensureDirectory ho place
  rw [hc.eq (fun hm => h.aside place hm ha) List.not_mem_nil]
  exact h.empty place ha

/-- Then any file below it can be saved. -/
theorem exists_save (h : disk.Vacant root) (hw : disk.WellFormed)
    (ho : Yields (Files.ensureDirectory root) disk () opened) (hne : names ≠ [])
    (hn : ∀ name ∈ names, Path.IsName name) (text : String) :
    ∃ disk', Yields (Files.save (root.joinAll names) text) opened () disk' := by
  obtain ⟨init, last, rfl⟩ := (List.eq_nil_or_concat names).resolve_left hne
  rw [List.concat_eq_append] at hne hn ⊢
  have hlast : Path.IsName last := List.forall_mem_singleton.mp (List.forall_mem_append.mp hn).2
  have habove := Path.above_joinAll root hne hn
  obtain ⟨above, hp, -, -⟩ := Path.exists_parts_join (root.joinAll init) hlast.noSlash
  rw [← Path.joinAll_concat] at hp
  refine (hw.of_ensureDirectory ho).exists_save hp hlast (fun place hm bytes hb => ?_)
    (fun hm => ?_) (fun hd => ?_) text
  · rcases Path.way_joinAll root hne hn hm with hroot | ⟨front, hfront, -, -, rfl⟩
    · rw [directories_of_ensureDirectory ho place hroot] at hb
      cases hb
    · rw [h.empty_of_ensureDirectory ho ⟨front, hfront, rfl⟩] at hb
      cases hb
  · rcases Path.way_joinAll root hne hn hm with hroot | ⟨front, -, -, hother, he⟩
    · exact h.aside _ hroot habove
    · rw [Path.location_joinAll root hn, List.append_cancel_left_eq] at he
      exact hother he.symm
  · rw [h.empty_of_ensureDirectory ho habove] at hd
    cases hd

end Vacant

/-! ## Elsewhere -/

/-- What is made and written for one directory does not touch what is below another. -/
theorem Changes.eq_of_separate (hc : disk.Changes disk' made written) (hs : path.Separate other)
    (hm : ∀ place ∈ made, place ∈ Path.entered [] path.parts ∨ path.Above place)
    (hw : ∀ place ∈ written, path.Above place) (ha : other.Above place) :
    disk'.entry? place = disk.entry? place := by
  have hnot : ¬ path.Above place := fun hp => hs.not_above hp ha
  refine (hc place).eq (fun hplace => ?_) fun hplace => hnot (hw place hplace)
  exact (hm place hplace).elim (fun hp => hs.aside place hp ha) hnot

/-- The other directory stays vacant. -/
theorem Vacant.of_changes (h : disk.Vacant other) (hc : disk.Changes disk' made written)
    (hs : path.Separate other)
    (hm : ∀ place ∈ made, place ∈ Path.entered [] path.parts ∨ path.Above place)
    (hw : ∀ place ∈ written, path.Above place) : disk'.Vacant other := by
  refine ⟨h.named, fun place hp => ?_, h.aside, fun place ha => ?_⟩
  · exact hc.noFile (h.noFile place hp) fun hplace => hs.beside place hp (hw place hplace)
  · rw [hc.eq_of_separate hs hm hw ha, h.empty place ha]

end Disk

end TreeSeq
