import TreeSeq.Proofs.Disk.WellFormed
import Mathlib.Data.List.TakeWhile

/-!
# The way to a path

Names enter one location after the other (`Path.entered`); the directories that have to
be there for a path are those that the names in front of its last one enter (`Path.way`).
Going on by a name enters one more location, behind those of the path that is gone on
from (`location_join`, `entered_join`, `way_join`).

Directories can be made along names just if no file is in the way (`descend_eq_ok_iff`),
and names lead on where all that they enter are directories (`WellFormed.follow_entered`).
-/

namespace TreeSeq

namespace Path

variable {path root : Path} {here : List String} {name : String}

/-- The locations that names enter one after the other, from a location on. -/
def entered (here : List String) : List String → List (List String)
  | [] => []
  | part :: rest =>
    if stays part then entered here rest
    else if part == ".." then entered here.dropLast rest
    else (here ++ [part]) :: entered (here ++ [part]) rest

/-- The locations of the directories on the way to a path. -/
def way (path : Path) : List (List String) :=
  entered [] path.parent.parts

theorem text_injective : Function.Injective text := by
  rintro ⟨_⟩ ⟨_⟩ rfl
  rfl

theorem walk_append (here names others : List String) :
    walk here (names ++ others) = walk (walk here names) others := by
  induction names generalizing here with
  | nil => rfl
  | cons part rest ih =>
    rw [List.cons_append, walk, walk]
    split
    · exact ih here
    · split
      · exact ih here.dropLast
      · exact ih (here ++ [part])

theorem entered_append (here names others : List String) :
    entered here (names ++ others) = entered here names ++ entered (walk here names) others := by
  induction names generalizing here with
  | nil => rfl
  | cons part rest ih =>
    rw [List.cons_append, entered, entered, walk]
    split
    · exact ih here
    · split
      · exact ih here.dropLast
      · rw [ih, List.cons_append]

/-- Names that stay enter nothing. -/
theorem walk_of_stays {names : List String} (h : ∀ part ∈ names, stays part = true) :
    walk here names = here := by
  induction names with
  | nil => rfl
  | cons part rest ih =>
    obtain ⟨hpart, hrest⟩ := List.forall_mem_cons.mp h
    rw [walk, if_pos hpart, ih hrest]

theorem entered_of_stays {names : List String} (h : ∀ part ∈ names, stays part = true) :
    entered here names = [] := by
  induction names with
  | nil => rfl
  | cons part rest ih =>
    obtain ⟨hpart, hrest⟩ := List.forall_mem_cons.mp h
    rw [entered, if_pos hpart, ih hrest]

theorem walk_name (h : IsName name) (here : List String) : walk here [name] = here ++ [name] := by
  rw [walk, if_neg (by rw [h.goes]; exact Bool.false_ne_true), if_neg (by simpa using h.ne_up),
    walk]

theorem entered_name (h : IsName name) (here : List String) :
    entered here [name] = [here ++ [name]] := by
  rw [entered, if_neg (by rw [h.goes]; exact Bool.false_ne_true), if_neg (by simpa using h.ne_up),
    entered]

/-! ## Parts -/

/-- Names without slashes are the parts of the path that they make up. -/
theorem parts_ofParts {names : List String} (hne : names ≠ [])
    (h : ∀ name ∈ names, '/' ∉ name.toList) : (ofParts names).parts = names := by
  have hl : ("/".intercalate names).toList = ['/'].intercalate (names.map String.toList) := by
    rw [String.toList_intercalate]
    rfl
  rw [parts, ofParts, hl, List.splitOn_intercalate '/' _ (by simpa using hne), List.map_map]
  · conv_rhs => rw [← List.map_id names]
    exact List.map_congr_left fun name _ => String.ofList_toList
  · intro piece hp
    obtain ⟨name, hn, rfl⟩ := List.mem_map.mp hp
    exact h name hn

/-- The names of a path, up to a last one that goes somewhere, and those behind it, which
stay; or all names stay. -/
inductive Ends (path : Path) : Prop where
  | goes {above : List String} {last : String} {behind : List String}
    (h : path.parts = above ++ last :: behind) (hl : stays last = false)
    (hb : ∀ part ∈ behind, stays part = true)
  | stays (h : ∀ part ∈ path.parts, Path.stays part = true)

theorem ends (path : Path) : Ends path := by
  have hsplit := List.takeWhile_append_dropWhile (p := stays) (l := path.parts.reverse)
  have htake : ∀ part ∈ path.parts.reverse.takeWhile stays, stays part = true := fun part hm =>
    List.mem_takeWhile_imp hm
  cases hd : path.parts.reverse.dropWhile stays with
  | nil =>
    rw [hd, List.append_nil] at hsplit
    refine .stays fun part hm => htake part ?_
    rw [hsplit]
    exact List.mem_reverse.mpr hm
  | cons last above =>
    have hlast : stays last = false := by
      have hne := List.head_dropWhile_not stays (l := path.parts.reverse) (by simp [hd])
      simpa [hd] using hne
    have hparts : path.parts =
        above.reverse ++ last :: (path.parts.reverse.takeWhile stays).reverse := by
      have hr := congrArg List.reverse hsplit
      rw [hd, List.reverse_append, List.reverse_cons, List.append_assoc, List.reverse_reverse] at hr
      exact hr.symm
    exact .goes hparts hlast fun part hm => htake part (List.mem_reverse.mp hm)

/-- The way to a path is along the names in front of the last one that goes. -/
theorem way_of_parts {above behind : List String} {last : String}
    (h : path.parts = above ++ last :: behind) (hl : stays last = false)
    (hb : ∀ part ∈ behind, stays part = true) : path.way = entered [] above := by
  have hparent : path.parent = ofParts above := by
    have hd : path.parts.reverse.dropWhile stays = last :: above.reverse := by
      rw [h, List.reverse_append, List.reverse_cons, List.append_assoc,
        List.dropWhile_append_of_pos fun part hm => hb part (List.mem_reverse.mp hm)]
      simp [hl]
    rw [parent, hd, List.tail_cons, List.reverse_reverse]
  rw [way, hparent]
  rcases eq_or_ne above [] with rfl | hne
  · rfl
  · rw [parts_ofParts hne fun name hm =>
      noSlash_of_mem_parts (h ▸ List.mem_append_left _ hm)]

/-- Without empty names at the end, a path that goes somewhere ends in a name in front of
which there are the names on its way, or those, the one that goes, and some that stay. -/
theorem exists_front {above behind : List String} {last : String}
    (h : path.parts = above ++ last :: behind) (hl : stays last = false)
    (hb : ∀ part ∈ behind, stays part = true) :
    ∃ name front, path.parts.reverse.dropWhile (· == "") = name :: front ∧
      (front.reverse = above ∨
        ∃ others, front.reverse = above ++ last :: others ∧
          ∀ part ∈ others, stays part = true) := by
  have hempty : (last == "") = false := by
    rw [Bool.eq_false_iff]
    intro he
    rw [stays, he, Bool.true_or] at hl
    cases hl
  have hparts : path.parts.reverse = behind.reverse ++ last :: above.reverse := by
    rw [h, List.reverse_append, List.reverse_cons, List.append_assoc]
    rfl
  have hdrop := @List.dropWhile_append _ (· == "") behind.reverse (last :: above.reverse)
  rw [← hparts] at hdrop
  cases hbehind : behind.reverse.dropWhile (· == "") with
  | nil =>
    rw [hbehind, List.isEmpty_nil, if_pos rfl,
      List.dropWhile_cons_of_neg (by rw [hempty]; exact Bool.false_ne_true)] at hdrop
    exact ⟨last, above.reverse, hdrop, .inl (List.reverse_reverse above)⟩
  | cons dot others =>
    rw [hbehind, List.isEmpty_cons, if_neg Bool.false_ne_true, List.cons_append] at hdrop
    refine ⟨dot, others ++ last :: above.reverse, hdrop, .inr ⟨others.reverse, by simp, ?_⟩⟩
    intro part hm
    have hsuffix := List.dropWhile_suffix (l := behind.reverse) (· == "")
    rw [hbehind] at hsuffix
    refine hb part (List.mem_reverse.mp (hsuffix.subset ?_))
    exact List.mem_cons_of_mem _ (List.mem_reverse.mp hm)

/-! ## Going on by a name -/

/-- A path that was gone on from without a slash ends in the text it was gone on by, in
front of which its names lead as before. -/
theorem exists_parts_join (root : Path) (hn : '/' ∉ name.toList) :
    ∃ above, (root.join name).parts = above ++ [name] ∧ walk [] above = root.location ∧
      entered [] above = entered [] root.parts := by
  rw [join, not_startsWith_slash hn, if_neg Bool.false_ne_true]
  cases he : root.text.endsWith "/" with
  | true =>
    obtain ⟨front, hr⟩ := exists_eq_append_slash he
    have hroot : root.parts = parts ⟨front⟩ ++ [""] := by
      have hp := parts_append_slash front ""
      rw [String.append_empty, ← hr] at hp
      exact hp
    have hstay : ∀ part ∈ [""], stays part = true := by decide
    rw [Bool.or_true, if_pos rfl, hr, parts_append_slash, parts_of_noSlash hn]
    refine ⟨_, rfl, ?_, ?_⟩
    · rw [location, hroot, walk_append, walk_of_stays hstay]
    · rw [hroot, entered_append, entered_of_stays hstay, List.append_nil]
  | false =>
    rw [Bool.or_false]
    cases ht : root.text.isEmpty with
    | true =>
      have hroot : root = ⟨""⟩ := by
        obtain ⟨text⟩ := root
        exact congrArg mk (String.isEmpty_iff.mp ht)
      have hempty : parts ⟨""⟩ = [""] := rfl
      have htext : root.text ++ name = name := by rw [hroot, String.empty_append]
      rw [if_pos rfl, htext, parts_of_noSlash hn, hroot]
      exact ⟨[], rfl, by rw [location, hempty]; rfl, by rw [hempty]; rfl⟩
    | false =>
      rw [if_neg Bool.false_ne_true, parts_append_slash, parts_of_noSlash hn]
      exact ⟨_, rfl, rfl, rfl⟩

theorem location_join (root : Path) (hn : IsName name) :
    (root.join name).location = root.location ++ [name] := by
  obtain ⟨above, hp, hw, -⟩ := exists_parts_join root hn.noSlash
  rw [location, hp, walk_append, hw, walk_name hn]

theorem entered_join (root : Path) (hn : IsName name) :
    entered [] (root.join name).parts = entered [] root.parts ++ [root.location ++ [name]] := by
  obtain ⟨above, hp, hw, he⟩ := exists_parts_join root hn.noSlash
  rw [hp, entered_append, he, hw, entered_name hn]

theorem way_join (root : Path) (hn : IsName name) :
    (root.join name).way = entered [] root.parts := by
  obtain ⟨above, hp, -, he⟩ := exists_parts_join root hn.noSlash
  rw [way_of_parts hp hn.goes (List.forall_mem_nil _), he]

theorem joinAll_concat (root : Path) (names : List String) (name : String) :
    root.joinAll (names ++ [name]) = (root.joinAll names).join name := by
  rw [joinAll, List.foldl_append]
  rfl

theorem location_joinAll (root : Path) {names : List String} (h : ∀ name ∈ names, IsName name) :
    (root.joinAll names).location = root.location ++ names := by
  induction names using List.reverseRecOn with
  | nil => rw [List.append_nil]; rfl
  | append_singleton init last ih =>
    rw [List.forall_mem_append, List.forall_mem_singleton] at h
    rw [joinAll_concat, location_join _ h.2, ih h.1, List.append_assoc]

/-- Going on by names enters what is below the location that is gone on from, down to the
last name. -/
theorem mem_entered_joinAll {root : Path} {names place : List String}
    (h : ∀ name ∈ names, IsName name) :
    place ∈ entered [] (root.joinAll names).parts ↔
      place ∈ entered [] root.parts ∨
        ∃ front, front ≠ [] ∧ front <+: names ∧ place = root.location ++ front := by
  induction names using List.reverseRecOn with
  | nil => simp [joinAll]
  | append_singleton init last ih =>
    rw [List.forall_mem_append, List.forall_mem_singleton] at h
    rw [joinAll_concat, entered_join _ h.2, List.mem_append, ih h.1, List.mem_singleton,
      location_joinAll root h.1, or_assoc]
    refine or_congr_right ⟨?_, ?_⟩
    · rintro (⟨front, hne, hp, rfl⟩ | rfl)
      · exact ⟨front, hne, hp.trans (List.prefix_append _ _), rfl⟩
      · exact ⟨init ++ [last], by simp, List.prefix_refl _, by rw [List.append_assoc]⟩
    · rintro ⟨front, hne, hp, rfl⟩
      rcases List.prefix_concat_iff.mp hp with rfl | hp
      · exact .inr (List.append_assoc _ _ _).symm
      · exact .inl ⟨front, hne, hp, rfl⟩

end Path

namespace Disk

variable {disk disk' : Disk} {path : Path} {here names : List String}

/-- Names lead on where all that they enter are directories. -/
theorem WellFormed.follow_entered (h : disk.WellFormed) (hd : disk.entry? here = some .directory)
    (he : ∀ place ∈ Path.entered here names, disk.entry? place = some .directory) :
    disk.follow here names = .ok (Path.walk here names) ∧
      disk.entry? (Path.walk here names) = some .directory := by
  induction names generalizing here with
  | nil => exact ⟨rfl, hd⟩
  | cons part rest ih =>
    rw [follow, hd, Path.walk]
    rw [Path.entered] at he
    simp only
    split
    · rename_i hs
      rw [if_pos hs] at he
      exact ih hd he
    · rename_i hs
      rw [if_neg hs] at he
      split
      · rename_i hup
        rw [if_pos hup] at he
        exact ih (h.entry?_dropLast hd) he
      · rename_i hup
        rw [if_neg hup, List.forall_mem_cons] at he
        exact ih he.1 he.2

/-! ## Making directories -/

/-- No file stands at a location. -/
def NoFile (disk : Disk) (place : List String) : Prop :=
  ∀ bytes, disk.entry? place ≠ some (.file bytes)

theorem noFile_put_directory {place other : List String} (hp : place ≠ [])
    (h : disk.NoFile other) : (disk.put place .directory).NoFile other := by
  intro bytes
  rw [entry?_put hp]
  split
  · simp
  · exact h bytes

/-- Directories can be made along names just if there is no file on the way. -/
theorem descend_eq_ok_iff : (disk.descend here names).1 = .ok () ↔
    ∀ place ∈ Path.entered here names, disk.NoFile place := by
  induction names generalizing disk here with
  | nil => simp [descend, Path.entered]
  | cons part rest ih =>
    rw [descend, Path.entered]
    split
    · exact ih
    · split
      · exact ih
      · rw [List.forall_mem_cons]
        simp only
        split
        · rename_i hd
          rw [ih]
          exact (and_iff_right fun bytes hf => by rw [hd] at hf; cases hf).symm
        · rename_i bytes hf
          exact iff_of_false (fun h => by cases h) fun h => h.1 bytes hf
        · rename_i hn
          have hne : here ++ [part] ≠ [] := by simp
          have hnew : disk.NoFile (here ++ [part]) := fun bytes hf => by
            rw [hn] at hf
            cases hf
          rw [ih, and_iff_right hnew]
          refine forall₂_congr fun place _ => ⟨fun h bytes hf => ?_, noFile_put_directory hne⟩
          have hother : place ≠ here ++ [part] := by
            rintro rfl
            rw [hn] at hf
            cases hf
          refine h bytes ?_
          rw [entry?_put hne, if_neg hother, hf]

/-- Then there are directories along the names. -/
theorem directories_of_descend (h : (disk.descend here names).1 = .ok ()) :
    ∀ place ∈ Path.entered here names,
      Disk.entry? (disk.descend here names).2 place = some .directory := by
  induction names generalizing disk here with
  | nil => exact List.forall_mem_nil _
  | cons part rest ih =>
    rw [descend] at h ⊢
    rw [Path.entered]
    split
    · rename_i hs
      rw [if_pos hs] at h
      exact ih h
    · rename_i hs
      rw [if_neg hs] at h
      split
      · rename_i hup
        rw [if_pos hup] at h
        exact ih h
      · rename_i hup
        rw [if_neg hup] at h
        rw [List.forall_mem_cons]
        simp only at h ⊢
        split at h
        · rename_i hd
          exact ⟨keeps_descend _ _ _ _ _ hd (.inl rfl), ih h⟩
        · cases h
        · rename_i hn
          refine ⟨keeps_descend _ _ _ _ _ ?_ (.inl rfl), ih h⟩
          rw [entry?_put (by simp), if_pos rfl]

theorem makeDirectories_eq_ok_iff : (disk.makeDirectories path).1 = .ok () ↔
    ∀ place ∈ Path.entered [] path.parts, disk.NoFile place :=
  descend_eq_ok_iff

end Disk

end TreeSeq
