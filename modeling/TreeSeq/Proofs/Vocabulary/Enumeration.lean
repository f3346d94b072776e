import TreeSeq.Proofs.Vocabulary.Inversion
import TreeSeq.Vocabulary.File
import Mathlib.Data.List.Basic
import Mathlib.Data.Prod.Basic

/-!
# Vocabularies without gaps as lists of tokens

A vocabulary whose ids are `0, 1, …` comes down to the list of its tokens in the order
of their ids, wherever they stand among its entries (`Enumerates`). The id of a token is
its position in that list, the inverse looks tokens up in it, and a file has its tokens
as lines.

* `exists_enumerates`: such a list is there if there is an inverse, which lists it;
* `Enumerates.idOf?_eq_some_iff`, `Enumerates.tokenOf?`: the vocabulary and its inverse;
* `Enumerates.save`: its file.
-/

namespace TreeSeq.Vocabulary

variable {vocabulary : Vocabulary} {tokens : List String}

/-- The vocabulary has these tokens, each with its position as its id. -/
def Enumerates (vocabulary : Vocabulary) (tokens : List String) : Prop :=
  vocabulary.entries.Perm tokens.zipIdx

namespace Enumerates

theorem size (h : vocabulary.Enumerates tokens) : vocabulary.size = tokens.length := by
  rw [Vocabulary.size, h.length_eq, List.length_zipIdx]

theorem names (h : vocabulary.Enumerates tokens) : (Fields.names vocabulary.entries).Perm tokens := by
  have hm := h.map (·.1)
  rwa [List.zipIdx_map_fst] at hm

theorem nodup (h : vocabulary.Enumerates tokens) : tokens.Nodup :=
  h.names.nodup_iff.mp vocabulary.distinct

/-- Tokens are found at their ids. -/
theorem idOf?_eq_some_iff (h : vocabulary.Enumerates tokens) {token : String} {id : Nat} :
    vocabulary.idOf? token = some id ↔ tokens[id]? = some token := by
  have hm : (token, id) ∈ vocabulary.entries ↔ tokens[id]? = some token := by
    rw [h.mem_iff, List.mk_mem_zipIdx_iff_getElem?]
  rw [← hm]
  exact ⟨Fields.mem_of_get?, Fields.get?_of_mem vocabulary.distinct⟩

theorem gapless (h : vocabulary.Enumerates tokens) : vocabulary.Gapless := by
  have hi : vocabulary.ids.Perm (tokens.zipIdx.map (·.2)) := List.Perm.map _ h
  rw [List.zipIdx_map_snd, ← List.range_eq_range'] at hi
  rwa [Gapless, h.size]

/-- A vocabulary has one such list. -/
theorem unique {others : List String} (h : vocabulary.Enumerates tokens)
    (ho : vocabulary.Enumerates others) : tokens = others := by
  refine List.ext_getElem? fun id => Option.ext fun token => ?_
  rw [← h.idOf?_eq_some_iff, ho.idOf?_eq_some_iff]

end Enumerates

/-- Pairs that stand at the positions that their ids say. -/
theorem eq_swap_zipIdx {pairs : List (Nat × String)}
    (h : pairs.map (·.1) = List.range pairs.length) :
    pairs = (pairs.map (·.2)).zipIdx.map Prod.swap := by
  refine List.ext_getElem (by simp) fun i hi _ => ?_
  have hid : (pairs.map (·.1))[i]? = some i := by rw [h, List.getElem?_range hi]
  rw [List.getElem?_map, List.getElem?_eq_getElem hi, Option.map_some, Option.some.injEq] at hid
  rw [List.getElem_map, List.getElem_zipIdx, List.getElem_map, Nat.zero_add]
  exact Prod.ext hid rfl

/-- An inverse lists the tokens of the vocabulary in the order of their ids. -/
theorem exists_enumerates {inverse : Inverse} (h : vocabulary.invert = .ok inverse) :
    ∃ tokens, vocabulary.Enumerates tokens ∧ inverse.entries = tokens.zipIdx.map Prod.swap := by
  have hg : vocabulary.Gapless := invert_ok_iff.mp ⟨inverse, h⟩
  obtain ⟨result, hr, rfl⟩ : ∃ result,
      idsInto vocabulary.size .empty vocabulary.entries = .ok result ∧ inverse = result.sorted := by
    rw [invert] at h
    split at h
    · rename_i result hr
      exact ⟨result, hr, (Except.ok.inj h).symm⟩
    · cases h
  have hp : result.sorted.entries.Perm (vocabulary.entries.map Prod.swap) := by
    rw [← List.nil_append (vocabulary.entries.map Prod.swap)]
    exact (idsInto_eq_ok_iff.mp hr).2.2 ▸ List.mergeSort_perm _ _
  have hids : result.sorted.entries.map (·.1) = List.range result.sorted.entries.length := by
    refine List.Perm.eq_of_pairwise (fun _ _ _ _ => Nat.le_antisymm) ?_ List.pairwise_le_range ?_
    · rw [List.pairwise_map]
      exact (List.pairwise_mergeSort (by simp; omega) (by simp; omega) _).imp (by simp)
    · have hm := hp.map (·.1)
      rw [List.map_map] at hm
      rw [hp.length_eq, List.length_map]
      exact hm.trans hg
  have he := eq_swap_zipIdx hids
  refine ⟨result.sorted.entries.map (·.2), ?_, he⟩
  have hs := (he ▸ hp).map Prod.swap
  simp only [List.map_map, Prod.swap_swap_eq, List.map_id] at hs
  exact hs.symm

namespace Enumerates

theorem invert (h : vocabulary.Enumerates tokens) :
    ∃ inverse, vocabulary.invert = .ok inverse ∧ inverse.entries = tokens.zipIdx.map Prod.swap := by
  obtain ⟨inverse, hi⟩ := invert_ok_iff.mpr h.gapless
  obtain ⟨others, ho, he⟩ := exists_enumerates hi
  exact ⟨inverse, hi, h.unique ho ▸ he⟩

/-- The inverse finds the tokens at their positions. -/
theorem tokenOf? (h : vocabulary.Enumerates tokens) {inverse : Inverse}
    (hi : vocabulary.invert = .ok inverse) (id : Nat) : inverse.tokenOf? id = tokens[id]? := by
  obtain ⟨others, ho, he⟩ := exists_enumerates hi
  obtain rfl := h.unique ho
  refine Option.ext fun token => ?_
  have hm : (id, token) ∈ inverse.entries ↔ tokens[id]? = some token := by
    rw [he, ← List.mk_mem_zipIdx_iff_getElem?]
    exact List.mem_map_of_injective Prod.swap_injective (a := (token, id))
  rw [← hm]
  exact ⟨Fields.mem_of_get?, Fields.get?_of_mem inverse.distinct⟩

/-- A file has the tokens as its lines. -/
theorem save (h : vocabulary.Enumerates tokens) : vocabulary.save = .ok (Text.unlines tokens) := by
  obtain ⟨inverse, hi, he⟩ := h.invert
  have hm : inverse.entries.map (·.2) = tokens := by
    rw [he, List.map_map]
    exact List.zipIdx_map_fst 0 tokens
  rw [Vocabulary.save, hi]
  exact congrArg (fun texts => Except.ok (Text.unlines texts)) hm

end Enumerates

end TreeSeq.Vocabulary
