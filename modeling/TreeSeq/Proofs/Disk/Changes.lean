import TreeSeq.Proofs.Disk.Ways

/-!
# What file operations change

`Keeps` tells what is left alone; `Changes` tells what becomes of all the rest: there are
new directories at some locations and files with new content at others, and nothing else
is different. Saving a file makes directories on its way and, if it succeeds, writes the
file alone (`changes_of_save`).

An operation does not see what it has nothing to do with. If two disks differ in
directories and files that are neither the file that is saved nor files on its way, saving
ends the same on both (`save_likewise`), and changes the second as it changes the first
(`Likewise`).
-/

namespace TreeSeq.Disk

variable {disk disk' between done done' : Disk} {path : Path} {here location names : List String}
  {made written made' written' : List (List String)} {bytes : ByteArray} {text : String}

/-- What may happen at a location: nothing, or a directory is made, or a file is written. -/
inductive Change (made written : List (List String)) (location : List String) :
    Option DiskEntry → Option DiskEntry → Prop
  | same (entry : Option DiskEntry) : Change made written location entry entry
  | made (h : location ∈ made) : Change made written location none (some .directory)
  | written {entry : Option DiskEntry} (h : location ∈ written) (hd : entry ≠ some .directory)
    (bytes : ByteArray) : Change made written location entry (some (.file bytes))

/-- All that is different is that there are new directories at `made` and that files at
`written` were written. -/
def Changes (disk disk' : Disk) (made written : List (List String)) : Prop :=
  ∀ location, Change made written location (disk.entry? location) (disk'.entry? location)

/-! ## Steps put together -/

theorem Change.mono {a b : Option DiskEntry} (h : Change made written location a b)
    (hm : made ⊆ made') (hw : written ⊆ written') : Change made' written' location a b := by
  cases h with
  | same entry => exact .same _
  | made h => exact .made (hm h)
  | written h hd bytes => exact .written (hw h) hd bytes

theorem Change.trans {a b c : Option DiskEntry} (h : Change made written location a b)
    (h' : Change made' written' location b c) :
    Change (made ++ made') (written ++ written') location a c := by
  cases h with
  | same entry =>
    exact h'.mono (List.subset_append_right _ _) (List.subset_append_right _ _)
  | made h =>
    cases h' with
    | same entry => exact .made (List.mem_append_left _ h)
    | written _ hd bytes => exact absurd rfl hd
  | written h hd bytes =>
    cases h' with
    | same entry => exact .written (List.mem_append_left _ h) hd bytes
    | written _ _ bytes' => exact .written (List.mem_append_left _ h) hd bytes'

/-- Where nothing was to happen, nothing did. -/
theorem Change.eq {a b : Option DiskEntry} (h : Change made written location a b)
    (hm : location ∉ made) (hw : location ∉ written) : b = a := by
  cases h with
  | same entry => rfl
  | made h => exact absurd h hm
  | written h hd bytes => exact absurd h hw

namespace Changes

theorem refl (disk : Disk) (made written : List (List String)) : disk.Changes disk made written :=
  fun _ => .same _

theorem mono (h : disk.Changes disk' made written) (hm : made ⊆ made') (hw : written ⊆ written') :
    disk.Changes disk' made' written' :=
  fun location => (h location).mono hm hw

theorem trans (h : disk.Changes between made written) (h' : between.Changes disk' made' written') :
    disk.Changes disk' (made ++ made') (written ++ written') :=
  fun location => (h location).trans (h' location)

theorem keeps (h : disk.Changes disk' made written) : disk.Keeps disk' written := by
  intro location entry he hw
  have hc := h location
  rw [he] at hc
  generalize disk'.entry? location = found at hc
  cases hc with
  | same _ => rfl
  | written hm hd bytes =>
    rcases hw with rfl | hn
    · exact absurd rfl hd
    · exact absurd hm hn

/-- A new file was written. -/
theorem mem_written (h : disk.Changes disk' made written)
    (he : disk'.entry? location = some (.file bytes)) :
    disk.entry? location = some (.file bytes) ∨ location ∈ written := by
  have hc := h location
  rw [he] at hc
  generalize disk.entry? location = found at hc
  cases hc with
  | same _ => exact .inl rfl
  | written hm hd bytes => exact .inr hm

/-- A new directory was made. -/
theorem mem_made (h : disk.Changes disk' made written)
    (he : disk'.entry? location = some .directory) :
    disk.entry? location = some .directory ∨ location ∈ made := by
  have hc := h location
  rw [he] at hc
  generalize disk.entry? location = found at hc
  cases hc with
  | same _ => exact .inl rfl
  | made hm => exact .inr hm

/-- No file comes up where none is written. -/
theorem noFile (h : disk.Changes disk' made written) (hn : disk.NoFile location)
    (hw : location ∉ written) : disk'.NoFile location := by
  intro bytes he
  rcases h.mem_written he with hf | hm
  · exact hn bytes hf
  · exact hw hm

end Changes

/-! ## Operations -/

theorem changes_put_directory (h : location ≠ []) (hn : disk.entry? location = none) :
    disk.Changes (disk.put location .directory) [location] [] := by
  intro other
  rw [entry?_put h]
  split
  · rename_i ho
    rw [ho, hn]
    exact .made (List.mem_singleton_self _)
  · exact .same _

theorem changes_put_file (h : location ≠ []) (hd : disk.entry? location ≠ some .directory)
    (bytes : ByteArray) : disk.Changes (disk.put location (.file bytes)) [] [location] := by
  intro other
  rw [entry?_put h]
  split
  · rename_i ho
    rw [ho]
    exact .written (List.mem_singleton_self _) hd bytes
  · exact .same _

/-- All that is made along names are directories that they enter. -/
theorem changes_descend (disk : Disk) (here names : List String) :
    disk.Changes (disk.descend here names).2 (Path.entered here names) [] := by
  induction names generalizing disk here with
  | nil => exact .refl _ _ _
  | cons part rest ih =>
    rw [descend, Path.entered]
    split
    · exact ih _ _
    · split
      · exact ih _ _
      · simp only
        split
        · exact (ih _ _).mono (List.subset_cons_self _ _) (List.Subset.refl _)
        · exact .refl _ _ _
        · rename_i hn
          exact (changes_put_directory (by simp) hn).trans (ih _ _)

theorem changes_of_write (h : disk.write path bytes = .ok disk') :
    disk.Changes disk' [] [path.location] := by
  obtain ⟨-, -, ⟨above, name, hl, -⟩, hd, rfl⟩ := write_eq_ok h
  exact changes_put_file (by simp [hl]) hd bytes

theorem changes_of_ensureDirectory {outcome : Except Error Unit}
    (h : disk.run (Files.ensureDirectory path) = (outcome, disk')) :
    disk.Changes disk' (Path.entered [] path.parts) [] := by
  rw [run_ensureDirectory] at h
  cases h
  exact changes_descend _ _ _

/-- Only a write that succeeds changes something. -/
theorem changes_of_overwrite {outcome : Except Error Unit}
    (h : disk.run (Files.overwrite path text) = (outcome, disk')) :
    disk.Changes disk' [] (if outcome.isOk then [path.location] else []) := by
  rw [run_overwrite, tryWrite] at h
  split at h
  · rename_i hw
    cases h
    exact changes_of_write hw
  · cases h
    exact .refl _ _ _

/-- Saving makes directories on the way, and writes the file if it succeeds. -/
theorem changes_of_save {outcome : Except Error Unit}
    (h : disk.run (Files.save path text) = (outcome, disk')) :
    disk.Changes disk' path.way (if outcome.isOk then [path.location] else []) := by
  obtain ⟨e, hm, rfl⟩ | ⟨_, between, hm, hw⟩ := run_bind_cases h
  · exact changes_of_ensureDirectory hm
  · have hc := (changes_of_ensureDirectory hm).trans (changes_of_overwrite hw)
    rwa [List.append_nil, List.nil_append] at hc

/-- What is saved has a name. -/
theorem isName_of_save {above : List String} {last : String}
    (h : Yields (Files.save path text) disk () disk') (hp : path.parts = above ++ [last]) :
    Path.IsName last := by
  obtain ⟨e, -, ho⟩ | ⟨_, between, -, hw⟩ := run_bind_cases h
  · cases ho
  rw [run_overwrite, tryWrite, write] at hw
  cases hl : between.fileLocation path with
  | error fault =>
    rw [hl] at hw
    cases hw
  | ok location => exact (last_of_fileLocation hl hp).1

/-! ## Well-formed disks stay so -/

theorem WellFormed.of_ensureDirectory {outcome : Except Error Unit} (hw : disk.WellFormed)
    (h : disk.run (Files.ensureDirectory path) = (outcome, disk')) : disk'.WellFormed := by
  rw [run_ensureDirectory] at h
  cases h
  exact hw.makeDirectories path

theorem WellFormed.of_overwrite {outcome : Except Error Unit} (hw : disk.WellFormed)
    (h : disk.run (Files.overwrite path text) = (outcome, disk')) : disk'.WellFormed := by
  rw [run_overwrite, tryWrite] at h
  split at h
  · rename_i hwrite
    cases h
    exact hw.write hwrite
  · cases h
    exact hw

theorem WellFormed.of_save {outcome : Except Error Unit} (hw : disk.WellFormed)
    (h : disk.run (Files.save path text) = (outcome, disk')) : disk'.WellFormed := by
  obtain ⟨e, hm, -⟩ | ⟨_, between, hm, hsave⟩ := run_bind_cases h
  · exact hw.of_ensureDirectory hm
  · exact (hw.of_ensureDirectory hm).of_overwrite hsave

/-! ## The same operation on two disks -/

/-- What changes `disk` into `done` changes `disk'` into `done'`, and nothing else does. -/
def Likewise (disk done disk' done' : Disk) : Prop :=
  ∀ location, (done.entry? location = disk.entry? location →
      done'.entry? location = disk'.entry? location) ∧
    (done.entry? location ≠ disk.entry? location →
      done'.entry? location = done.entry? location)

theorem Likewise.refl (disk disk' : Disk) : Likewise disk disk disk' disk' :=
  fun _ => ⟨fun _ => rfl, fun h => absurd rfl h⟩

/-- What is different on two disks is so after the same changes. -/
theorem Changes.of_likewise (h : disk.Changes disk' made written)
    (hl : Likewise disk done disk' done') : done.Changes done' made written := by
  intro location
  by_cases he : done.entry? location = disk.entry? location
  · rw [he, (hl location).1 he]
    exact h location
  · rw [(hl location).2 he]
    exact .same _

/-- A directory that is made first, on one disk or on both. -/
theorem Likewise.of_put {start' : Disk} (hne : location ≠ []) (hn : disk.entry? location = none)
    (hs : start' = disk' ∨ start' = disk'.put location .directory)
    (hd : start'.entry? location = some .directory)
    (h : Likewise (disk.put location .directory) done start' done')
    (hk : (disk.put location .directory).Keeps done []) : Likewise disk done disk' done' := by
  have hhere : done.entry? location = some .directory :=
    hk _ _ (by rw [entry?_put hne, if_pos rfl]) (.inl rfl)
  intro other
  by_cases ho : other = location
  · subst ho
    refine ⟨fun he => ?_, fun _ => ?_⟩
    · rw [hhere, hn] at he
      cases he
    · have hput : entry? (disk.put other .directory) other = some .directory := by
        rw [entry?_put hne, if_pos rfl]
      rw [(h other).1 (hhere.trans hput.symm), hd, hhere]
  · have hput : entry? (disk.put location .directory) other = disk.entry? other := by
      rw [entry?_put hne, if_neg ho]
    have hstart : start'.entry? other = disk'.entry? other := by
      rcases hs with rfl | rfl
      · rfl
      · rw [entry?_put hne, if_neg ho]
    have hl := h other
    rwa [hput, hstart] at hl

/-- Files that are not on the way do not matter to making directories. -/
theorem descend_likewise (h : disk.Changes disk' made written)
    (hn : ∀ place ∈ Path.entered here names, place ∉ written) :
    (disk'.descend here names).1 = (disk.descend here names).1 ∧
      Likewise disk (disk.descend here names).2 disk' (disk'.descend here names).2 := by
  induction names generalizing disk disk' here with
  | nil => exact ⟨rfl, .refl _ _⟩
  | cons part rest ih =>
    rw [Path.entered] at hn
    rw [descend, descend]
    by_cases hs : Path.stays part = true
    · rw [if_pos hs] at hn
      rw [if_pos hs, if_pos hs]
      exact ih h hn
    rw [if_neg hs] at hn
    rw [if_neg hs, if_neg hs]
    by_cases hup : (part == "..") = true
    · rw [if_pos hup] at hn
      rw [if_pos hup, if_pos hup]
      exact ih h hn
    rw [if_neg hup, List.forall_mem_cons] at hn
    rw [if_neg hup, if_neg hup]
    have hne : here ++ [part] ≠ [] := by simp
    have hc := h (here ++ [part])
    simp only
    generalize hbefore : disk.entry? (here ++ [part]) = before at hc ⊢
    generalize hafter : disk'.entry? (here ++ [part]) = after at hc ⊢
    cases hc with
    | same _ =>
      cases before with
      | none =>
        have hput : (disk.put (here ++ [part]) .directory).Changes
            (disk'.put (here ++ [part]) .directory) made written := by
          intro other
          rw [entry?_put hne, entry?_put hne]
          split
          · exact .same _
          · exact h other
        obtain ⟨houtcome, hl⟩ := ih hput hn.2
        refine ⟨houtcome, .of_put hne hbefore (.inr rfl) ?_ hl (keeps_descend _ _ _)⟩
        rw [entry?_put hne, if_pos rfl]
      | some entry =>
        cases entry with
        | directory => exact ih h hn.2
        | file bytes => exact ⟨rfl, .refl _ _⟩
    | made hm =>
      -- the directory is there already on the second disk
      have hput : (disk.put (here ++ [part]) .directory).Changes disk' made written := by
        intro other
        rw [entry?_put hne]
        split
        · rename_i ho
          rw [ho, hafter]
          exact .same _
        · exact h other
      obtain ⟨houtcome, hl⟩ := ih hput hn.2
      exact ⟨houtcome, .of_put hne hbefore (.inl rfl) hafter hl (keeps_descend _ _ _)⟩
    | written hm _ _ => exact absurd hm hn.1

/-! ### Writing -/

/-- Names that stay lead on if there is a directory. -/
theorem follow_stays_congr {names : List String} (hs : ∀ part ∈ names, Path.stays part = true)
    (h : disk'.entry? here = disk.entry? here) :
    disk'.follow here names = disk.follow here names := by
  induction names with
  | nil => rfl
  | cons part rest ih =>
    obtain ⟨hpart, hrest⟩ := List.forall_mem_cons.mp hs
    rw [follow, follow, h, hpart, if_pos rfl, if_pos rfl, ih hrest]

theorem follow_part {part : String} (hd : disk.entry? here = some .directory) :
    disk.follow here [part] = .ok (Path.walk here [part]) := by
  simp only [follow, hd, Path.walk]
  split
  · rfl
  · split <;> rfl

/-- Names behind a directory lead on from where the first of them leads. -/
theorem follow_behind {above others : List String} {part : String}
    (hf : disk.follow [] above = .ok here) (hd : disk.entry? here = some .directory) :
    disk.follow [] (above ++ part :: others) = disk.follow (Path.walk here [part]) others := by
  rw [← List.singleton_append, follow_append, hf, Except.bind, follow_append, follow_part hd,
    Except.bind]

/-- Where a file is written depends on where the names in front of the last lead, and on
what stands there. -/
theorem fileLocation_of_follow {last : String} {front : List String}
    (hp : path.parts.reverse.dropWhile (· == "") = last :: front)
    (hf : disk'.follow [] front.reverse = disk.follow [] front.reverse)
    (he : ∀ location, disk.follow [] front.reverse = .ok location →
      disk'.entry? location = disk.entry? location) :
    disk'.fileLocation path = disk.fileLocation path := by
  rw [fileLocation, fileLocation, hp]
  simp only [hf]
  cases hl : disk.follow [] front.reverse with
  | error fault => rfl
  | ok location =>
    simp only
    rw [he location hl]

/-- A path leads to the same place if the directories on its way are there and the same
stands where it ends. -/
theorem fileLocation_congr (hw : disk.WellFormed) (hw' : disk'.WellFormed)
    (hd : ∀ place ∈ path.way, disk.entry? place = some .directory)
    (hd' : ∀ place ∈ path.way, disk'.entry? place = some .directory)
    (ht : disk'.entry? path.location = disk.entry? path.location) :
    disk'.fileLocation path = disk.fileLocation path := by
  cases path.ends with
  | stays h =>
    cases hp : path.parts.reverse.dropWhile (· == "") with
    | nil => rw [fileLocation, fileLocation, hp]
    | cons last front =>
      have hfront : ∀ part ∈ front.reverse, Path.stays part = true := by
        intro part hm
        have hsuffix := List.dropWhile_suffix (l := path.parts.reverse) (· == "")
        rw [hp] at hsuffix
        refine h part (List.mem_reverse.mp (hsuffix.subset ?_))
        exact List.mem_cons_of_mem _ (List.mem_reverse.mp hm)
      refine fileLocation_of_follow hp (follow_stays_congr hfront rfl) fun location hl => ?_
      obtain rfl : [] = location := by rw [← walk_of_follow hl, Path.walk_of_stays hfront]
      rfl
  | @goes above last behind h hl hb =>
    rw [Path.way_of_parts h hl hb] at hd hd'
    obtain ⟨hf, hdir⟩ := hw.follow_entered rfl hd
    obtain ⟨hf', hdir'⟩ := hw'.follow_entered rfl hd'
    obtain ⟨name, front, hp, hfront | ⟨others, hfront, hothers⟩⟩ := Path.exists_front h hl hb
    · refine fileLocation_of_follow hp ?_ fun location hl => ?_
      · rw [hfront, hf, hf']
      · rw [hfront, hf] at hl
        cases hl
        rw [hdir, hdir']
    · -- names behind the last one that goes stay where the path ends
      have hlocation : path.location = Path.walk (Path.walk [] above) [last] := by
        rw [Path.location, h, Path.walk_append, ← List.singleton_append, Path.walk_append,
          Path.walk_of_stays hb]
      have hlead : disk.follow [] front.reverse = disk.follow path.location others := by
        rw [hfront, follow_behind hf hdir, hlocation]
      have hlead' : disk'.follow [] front.reverse = disk'.follow path.location others := by
        rw [hfront, follow_behind hf' hdir', hlocation]
      refine fileLocation_of_follow hp ?_ fun location hl => ?_
      · rw [hlead, hlead', follow_stays_congr hothers ht]
      · rw [hlead] at hl
        obtain rfl : path.location = location := by
          rw [← walk_of_follow hl, Path.walk_of_stays hothers]
        exact ht

/-- Writing a file ends the same if the directories on its way are there and the same
stands in its place. -/
theorem tryWrite_likewise (hw : disk.WellFormed) (hw' : disk'.WellFormed)
    (hd : ∀ place ∈ path.way, disk.entry? place = some .directory)
    (hd' : ∀ place ∈ path.way, disk'.entry? place = some .directory)
    (ht : disk'.entry? path.location = disk.entry? path.location) (bytes : ByteArray) :
    (disk'.tryWrite path bytes).1 = (disk.tryWrite path bytes).1 ∧
      Likewise disk (disk.tryWrite path bytes).2 disk' (disk'.tryWrite path bytes).2 := by
  rw [tryWrite, tryWrite, write, write, fileLocation_congr hw hw' hd hd' ht]
  cases hf : disk.fileLocation path with
  | error fault => exact ⟨rfl, .refl _ _⟩
  | ok location =>
    obtain ⟨-, hfollow, ⟨above, name, hlocation, -⟩⟩ := fileLocation_eq_ok hf
    obtain rfl : path.location = location := walk_of_follow hfollow
    simp only [ht]
    by_cases hdir : disk.entry? path.location = some .directory
    · rw [if_pos hdir, if_pos hdir]
      exact ⟨rfl, .refl _ _⟩
    · rw [if_neg hdir, if_neg hdir]
      have hne : path.location ≠ [] := by simp [hlocation]
      refine ⟨rfl, fun other => ?_⟩
      simp only [entry?_put hne]
      by_cases ho : other = path.location
      · subst ho
        rw [if_pos rfl, if_pos rfl, ht]
        exact ⟨id, fun _ => rfl⟩
      · rw [if_neg ho, if_neg ho]
        exact ⟨fun _ => rfl, fun h => absurd rfl h⟩

/-- One step after the other, if the first makes directories only. -/
theorem Likewise.trans {last last' : Disk} (h : Likewise disk done disk' done')
    (h' : Likewise done last done' last') (hm : disk.Changes done made [])
    (hk : done.Keeps last written) : Likewise disk last disk' last' := by
  intro location
  by_cases he : done.entry? location = disk.entry? location
  · refine ⟨fun hl => ?_, fun hl => ?_⟩
    · rw [(h' location).1 (hl.trans he.symm), (h location).1 he]
    · exact (h' location).2 fun hsame => hl (hsame.trans he)
  · -- a directory was made, and stays
    have hdir : done.entry? location = some .directory := by
      have hc := hm location
      generalize disk.entry? location = before at hc he
      generalize done.entry? location = after at hc he
      cases hc with
      | same _ => exact absurd rfl he
      | made _ => rfl
      | written hw _ _ => exact absurd hw List.not_mem_nil
    have hstays : last.entry? location = done.entry? location :=
      (hk _ _ hdir (.inl rfl)).trans hdir.symm
    rw [hstays]
    exact ⟨fun hsame => absurd hsame he, fun _ =>
      ((h' location).1 hstays).trans ((h location).2 he)⟩

/-- Two disks differ in places that are neither that of a file nor files on its way: saving
the file ends the same on both, with the same changes. -/
theorem save_likewise (hw : disk.WellFormed) (hw' : disk'.WellFormed)
    (h : disk.Changes disk' made written) (hm : path.location ∉ made)
    (hn : path.location ∉ written) (hway : ∀ place ∈ path.way, place ∉ written) (text : String) :
    (disk'.run (Files.save path text)).1 = (disk.run (Files.save path text)).1 ∧
      Likewise disk (disk.run (Files.save path text)).2 disk'
        (disk'.run (Files.save path text)).2 := by
  obtain ⟨houtcome, hl⟩ := descend_likewise h hway
  have hmade := changes_descend disk [] path.parent.parts
  have hdirs := @directories_of_descend disk [] path.parent.parts
  have hdirs' := @directories_of_descend disk' [] path.parent.parts
  have hww : (disk.descend [] path.parent.parts).2.WellFormed := hw.makeDirectories path.parent
  have hww' : (disk'.descend [] path.parent.parts).2.WellFormed := hw'.makeDirectories path.parent
  rw [Files.save, run_bind, run_bind, run_ensureDirectory, run_ensureDirectory, makeDirectories,
    makeDirectories]
  generalize disk.descend [] path.parent.parts = first at *
  generalize disk'.descend [] path.parent.parts = first' at *
  obtain ⟨outcome, between⟩ := first
  obtain ⟨outcome', between'⟩ := first'
  obtain rfl : outcome' = outcome := houtcome
  cases outcome' with
  | error fault => exact ⟨rfl, hl⟩
  | ok _ =>
    have ht : between'.entry? path.location = between.entry? path.location :=
      (h.of_likewise hl _).eq hm hn
    obtain ⟨hsaved, hlast⟩ := tryWrite_likewise hww hww' (hdirs rfl) (hdirs' rfl) ht text.toUTF8
    simp only [Except.mapError, run_overwrite]
    exact ⟨by rw [hsaved], hl.trans hlast hmade (keeps_tryWrite _ _ _)⟩

end TreeSeq.Disk
