import TreeSeq.Batch.Source
import TreeSeq.Proofs.Disk.Ways

/-!
# The names of what is made

What is made of a file has a place below the output directory (`Source.outputNames`). If
the name of the file ends in the suffix of a tree or of a sequence, the one is put in place
of the other (`outputNames_of_endsIn`), and the same again leads back
(`outputNames_outputNames`). So such files do not share what is made of them
(`names_eq_of_outputNames`).
-/

namespace TreeSeq.Batch.Source

variable {source other : Source} {suffix suffix' name : String}

/-- The names on the way down from the output directory to what is made of a file. -/
def outputNames (source : Source) (suffix : String) : List String :=
  source.names.dropLast ++ [stem (source.names.getLastD "") ++ suffix]

/-- The suffix is that of trees or that of sequences. -/
def Marking (suffix : String) : Prop :=
  suffix = ".ast.json" ∨ suffix = ".seq.json"

/-- The name of a file ends in a suffix. -/
def EndsIn (source : Source) (suffix : String) : Prop :=
  ∃ above front, source.names = above ++ [front ++ suffix]

theorem target_eq (source : Source) (output : Path) (suffix : String) :
    source.target output suffix = output.joinAll (source.outputNames suffix) :=
  rfl

/-! ## Stems -/

theorem cut?_append (front suffix : String) : cut? (front ++ suffix) suffix = some front := by
  have hs : suffix.toList.isSuffixOf (front ++ suffix).toList = true := by
    rw [List.isSuffixOf_iff_suffix, String.toList_append]
    exact List.suffix_append _ _
  rw [cut?, if_pos hs, String.length_append, Nat.add_sub_cancel, String.toList_append,
    ← String.length_toList, List.take_left, String.ofList_toList]

/-- A name that ends in a suffix does not end in another one of the same length. -/
theorem cut?_of_ne (hl : suffix.length = suffix'.length) (hne : suffix ≠ suffix')
    (front : String) : cut? (front ++ suffix) suffix' = none := by
  rw [cut?, if_neg]
  rw [List.isSuffixOf_iff_suffix, String.toList_append]
  intro hs
  have hsuffix : suffix'.toList <:+ suffix.toList :=
    List.suffix_of_suffix_length_le hs (List.suffix_append _ _)
      (by rw [String.length_toList, String.length_toList, hl])
  have he := hsuffix.eq_of_length (by rw [String.length_toList, String.length_toList, hl])
  exact hne (String.toList_inj.mp he).symm

/-- Suffixes of trees and of sequences are no part of stems. -/
theorem stem_append (h : Marking suffix) (front : String) :
    stem (front ++ suffix) = front := by
  rw [stem, knownSuffixes]
  rcases h with rfl | rfl
  · rw [List.findSome?_cons, cut?_append]
    rfl
  · have hother : cut? (front ++ ".seq.json") ".ast.json" = none :=
      cut?_of_ne (by decide) (by decide) front
    rw [List.findSome?_cons, hother, List.findSome?_cons, cut?_append]
    rfl

/-! ## Names with one suffix for another -/

theorem outputNames_of_endsIn {above : List String} {front : String} (hs : Marking suffix)
    (h : source.names = above ++ [front ++ suffix]) (suffix' : String) :
    source.outputNames suffix' = above ++ [front ++ suffix'] := by
  rw [outputNames, h, List.dropLast_concat, List.getLastD_concat, stem_append hs]

/-- The suffix again in place of the other one leads back. -/
theorem outputNames_outputNames (hs : Marking suffix)
    (hs' : Marking suffix') (h : source.EndsIn suffix)
    (hn : other.names = source.outputNames suffix') : other.outputNames suffix = source.names := by
  obtain ⟨above, front, h⟩ := h
  rw [outputNames_of_endsIn hs h] at hn
  rw [outputNames_of_endsIn hs' hn, h]

/-- Files with names in one suffix do not share what is made of them. -/
theorem names_eq_of_outputNames (hs : Marking suffix)
    (h : source.EndsIn suffix) (h' : other.EndsIn suffix)
    (he : source.outputNames suffix' = other.outputNames suffix') : source.names = other.names := by
  obtain ⟨above, front, h⟩ := h
  obtain ⟨above', front', h'⟩ := h'
  rw [outputNames_of_endsIn hs h, outputNames_of_endsIn hs h'] at he
  obtain ⟨rfl, hlast⟩ := List.append_inj' he rfl
  obtain rfl := String.append_left_inj _ |>.mp (List.cons.inj hlast).1
  rw [h, h']

/-- A text without slashes in front of a suffix makes a name. -/
theorem isName_append {front : String} (hf : '/' ∉ front.toList) (hs : '/' ∉ suffix.toList)
    (hl : 2 < suffix.length) : Path.IsName (front ++ suffix) := by
  have hne : ∀ short : String, short.length ≤ 2 → front ++ suffix ≠ short := by
    rintro short hshort rfl
    rw [String.length_append] at hshort
    omega
  refine ⟨?_, ?_, hne ".." (by decide)⟩
  · rw [String.toList_append, List.mem_append]
    exact not_or.mpr ⟨hf, hs⟩
  · rw [Path.stays, Bool.or_eq_false_iff, beq_eq_false_iff_ne, beq_eq_false_iff_ne]
    exact ⟨hne "" (by decide), hne "." (by decide)⟩

/-- There are names on the way down to what is made of a file. -/
theorem isName_of_outputNames (hs : Marking suffix)
    (hs' : Marking suffix') (h : source.EndsIn suffix)
    (hn : ∀ name ∈ source.names, Path.IsName name) :
    ∀ name ∈ source.outputNames suffix', Path.IsName name := by
  obtain ⟨above, front, h⟩ := h
  rw [outputNames_of_endsIn hs h]
  rw [h, List.forall_mem_append, List.forall_mem_singleton] at hn
  rw [List.forall_mem_append, List.forall_mem_singleton]
  have hfront : '/' ∉ front.toList := by
    have hslash := hn.2.noSlash
    rw [String.toList_append, List.mem_append, not_or] at hslash
    exact hslash.1
  refine ⟨hn.1, ?_⟩
  rcases hs' with rfl | rfl <;> exact isName_append hfront (by decide) (by decide)

theorem outputNames_ne_nil (source : Source) (suffix : String) : source.outputNames suffix ≠ [] :=
  List.concat_ne_nil _ _

end TreeSeq.Batch.Source
