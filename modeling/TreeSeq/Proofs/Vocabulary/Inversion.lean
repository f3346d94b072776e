import TreeSeq.Proofs.Fields
import TreeSeq.Vocabulary.Inverse
import Mathlib.Data.List.Nodup
import Mathlib.Data.List.Perm.Subperm

/-!
# When a vocabulary has an inverse

The ids of a vocabulary are taken one by one into its inverse: each has to be below
the number of tokens, and new. As many different ids below a number as there are
numbers below it leave none out.

* `idsInto_eq_ok_iff`: when all ids of a list of pairs are taken, and what the
  inverse lists then;
* `invert_ok_iff`: a vocabulary has an inverse just if its ids are `0, 1, …` in some
  order.
-/

namespace TreeSeq.Vocabulary

/-- A vocabulary is told by its entries. -/
theorem eq_of_entries {vocabulary other : Vocabulary} (h : other.entries = vocabulary.entries) :
    other = vocabulary := by
  obtain ⟨entries, nextId, distinct, next⟩ := vocabulary
  obtain ⟨entries', nextId', distinct', next'⟩ := other
  subst h next next'
  rfl

/-- The ids of all tokens, in the order in which the tokens were added. -/
def ids (vocabulary : Vocabulary) : List Nat :=
  vocabulary.entries.map (·.2)

/-- The ids are `0, 1, …` without gaps, each held by one token. -/
def Gapless (vocabulary : Vocabulary) : Prop :=
  vocabulary.ids.Perm (List.range vocabulary.size)

theorem length_ids (vocabulary : Vocabulary) : vocabulary.ids.length = vocabulary.size :=
  List.length_map _

/-- As many different numbers below a bound as the bound says are all of them. -/
theorem gapless_iff {vocabulary : Vocabulary} :
    vocabulary.Gapless ↔
      vocabulary.ids.Nodup ∧ ∀ id ∈ vocabulary.ids, id < vocabulary.size := by
  constructor
  · intro h
    exact ⟨h.nodup_iff.mpr List.nodup_range, fun id hid => List.mem_range.mp (h.subset hid)⟩
  · rintro ⟨hd, hl⟩
    have hs : vocabulary.ids ⊆ List.range vocabulary.size := fun id hid =>
      List.mem_range.mpr (hl id hid)
    exact (List.subperm_of_subset hd hs).perm_of_length_le
      (Nat.le_of_eq (by rw [List.length_range, length_ids]))

/-- The ids of pairs are taken just if they are below the bound, new, and different
from each other; the pairs are listed in order. -/
theorem idsInto_eq_ok_iff {size : Nat} {inverse result : Inverse} {pairs : List (String × Nat)} :
    idsInto size inverse pairs = .ok result ↔
      (∀ pair ∈ pairs, pair.2 < size) ∧ (Fields.names inverse.entries ++ pairs.map (·.2)).Nodup ∧
        result.entries = inverse.entries ++ pairs.map Prod.swap := by
  induction pairs generalizing inverse with
  | nil =>
    have hd : (Fields.names inverse.entries).Nodup := inverse.distinct
    obtain ⟨entries, distinct⟩ := inverse
    obtain ⟨entries', distinct'⟩ := result
    simpa [idsInto, eq_comm] using fun _ => hd
  | cons pair rest ih =>
    obtain ⟨token, id⟩ := pair
    rw [idsInto, List.forall_mem_cons, List.map_cons, List.map_cons, List.append_cons,
      List.append_cons inverse.entries]
    by_cases hid : size ≤ id
    · rw [if_pos hid]
      simp only [reduceCtorEq, false_iff, not_and]
      intro h
      omega
    rw [if_neg hid]
    cases ht : inverse.tokenOf? id with
    | some earlier =>
      have hm : id ∈ Fields.names inverse.entries := Fields.mem_names_iff.mpr ⟨earlier, ht⟩
      simp only [reduceCtorEq, false_iff, not_and]
      intro _ hn
      exact absurd rfl ((List.nodup_append.mp (List.nodup_append.mp hn).1).2.2 id hm id (by simp))
    | none =>
      have hm : id ∉ Fields.names inverse.entries := Fields.get?_eq_none_iff.mp ht
      have hnames : Fields.names (inverse.put id token).entries =
          Fields.names inverse.entries ++ [id] := by
        rw [Inverse.put, Fields.names_put, if_neg hm]
      have hentries : (inverse.put id token).entries = inverse.entries ++ [(id, token)] :=
        Fields.put_of_not_mem hm token
      rw [ih, hnames, hentries, Prod.swap_prod_mk]
      simp only [Nat.lt_of_not_le hid, true_and]

/-- A vocabulary has an inverse just if its ids are `0, 1, …`, each held by one
token. -/
theorem invert_ok_iff {vocabulary : Vocabulary} :
    (∃ inverse, vocabulary.invert = .ok inverse) ↔ vocabulary.Gapless := by
  have h : (∃ inverse, vocabulary.invert = .ok inverse) ↔
      ∃ result, idsInto vocabulary.size .empty vocabulary.entries = .ok result := by
    rw [invert]
    cases idsInto vocabulary.size .empty vocabulary.entries <;> simp
  rw [h, gapless_iff, ids, List.forall_mem_map]
  constructor
  · rintro ⟨result, hr⟩
    obtain ⟨hl, hd, -⟩ := idsInto_eq_ok_iff.mp hr
    exact ⟨hd, hl⟩
  · rintro ⟨hd, hl⟩
    have hdistinct : Fields.Distinct (vocabulary.entries.map Prod.swap) := by
      rwa [Fields.Distinct, Fields.names, List.map_map]
    exact ⟨⟨_, hdistinct⟩, idsInto_eq_ok_iff.mpr ⟨hl, hd, rfl⟩⟩

end TreeSeq.Vocabulary
