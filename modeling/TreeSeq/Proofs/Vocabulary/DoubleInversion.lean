import TreeSeq.Proofs.Vocabulary.Enumeration
import TreeSeq.Proofs.Vocabulary.Growth
import Mathlib.Data.List.ProdSigma

/-!
# Inverting twice

Inverting turns every entry round, so what is inverted twice comes back, but for the
order of the entries. A vocabulary is inverted just if its ids have no gaps, and an
inverse just if its tokens differ; otherwise a fault is reported that is there
(`HasFault`).

* `Inverse.invert_eq_ok_iff`: when a mapping from ids to tokens is inverted, and what the
  vocabulary lists then;
* `Inverse.hasFault_of_tokensInto`, `Vocabulary.hasFault_of_idsInto`: what is refused, each
  time an entry is taken;
* `Vocabulary.entries_of_invert`, `Inverse.entries_of_invert`: both ways of inverting turn
  the entries round;
* `Vocabulary.invert_twice`: when each way succeeds, and what comes back.
-/

namespace TreeSeq

namespace Inverse

variable {inverse : Inverse} {vocabulary result : Vocabulary}

/-- The tokens of all ids, in the order in which the ids were added. -/
def tokens (inverse : Inverse) : List String :=
  inverse.entries.map (·.2)

/-- The ids are `0, 1, …` without gaps. -/
def Gapless (inverse : Inverse) : Prop :=
  (Fields.names inverse.entries).Perm (List.range inverse.size)

/-- Two ids have the same token, as the fault says. -/
def HasFault (inverse : Inverse) : BijectionFault → Prop
  | .sharedToken token first second => first < second ∧
      inverse.tokenOf? first = some token ∧ inverse.tokenOf? second = some token
  | _ => False

theorem perm_sorted (inverse : Inverse) : inverse.sorted.entries.Perm inverse.entries :=
  List.mergeSort_perm _ _

theorem ascending_sorted (inverse : Inverse) :
    inverse.sorted.entries.Pairwise (·.1 < ·.1) := by
  have hle : inverse.sorted.entries.Pairwise (·.1 ≤ ·.1) :=
    (List.pairwise_mergeSort (by simp; omega) (by simp; omega) _).imp (by simp)
  have hne : inverse.sorted.entries.Pairwise (·.1 ≠ ·.1) := List.pairwise_map.mp inverse.sorted.distinct
  exact (hle.and hne).imp fun h => Nat.lt_of_le_of_ne h.1 h.2

/-- The tokens of pairs are taken just if they are new and different from each other;
the pairs are listed in order. -/
theorem tokensInto_eq_ok_iff {pairs : List (Nat × String)} :
    tokensInto vocabulary pairs = .ok result ↔
      (Fields.names vocabulary.entries ++ pairs.map (·.2)).Nodup ∧
        result.entries = vocabulary.entries ++ pairs.map Prod.swap := by
  induction pairs generalizing vocabulary with
  | nil =>
    rw [tokensInto, List.map_nil, List.append_nil, List.map_nil, List.append_nil]
    constructor
    · intro h
      cases h
      exact ⟨result.distinct, rfl⟩
    · rintro ⟨-, he⟩
      rw [Vocabulary.eq_of_entries he]
  | cons pair rest ih =>
    obtain ⟨id, token⟩ := pair
    rw [tokensInto, List.map_cons, List.map_cons, List.append_cons,
      List.append_cons vocabulary.entries]
    cases ht : vocabulary.idOf? token with
    | some earlier =>
      have hm : token ∈ Fields.names vocabulary.entries := Fields.mem_names_iff.mpr ⟨earlier, ht⟩
      simp only [reduceCtorEq, false_iff, not_and]
      intro hn
      exact absurd rfl
        ((List.nodup_append.mp (List.nodup_append.mp hn).1).2.2 token hm token (by simp))
    | none =>
      have he : (vocabulary.put token id).entries = vocabulary.entries ++ [(token, id)] :=
        Fields.put_of_not_mem (Fields.get?_eq_none_iff.mp ht) id
      simp only [ih, he, Fields.names_append]
      rfl

/-- An inverse is inverted just if its tokens differ. The vocabulary lists them in
ascending order of their ids. -/
theorem invert_eq_ok_iff : inverse.invert = .ok vocabulary ↔
    inverse.tokens.Nodup ∧ vocabulary.entries = inverse.sorted.entries.map Prod.swap := by
  have hp : (inverse.sorted.entries.map (·.2)).Perm inverse.tokens := inverse.perm_sorted.map _
  rw [invert, tokensInto_eq_ok_iff, ← hp.nodup_iff]
  rfl

theorem invert_ok_iff : (∃ vocabulary, inverse.invert = .ok vocabulary) ↔ inverse.tokens.Nodup := by
  constructor
  · rintro ⟨vocabulary, h⟩
    exact (invert_eq_ok_iff.mp h).1
  · intro hn
    have hd : Fields.Distinct (inverse.sorted.entries.map Prod.swap) := by
      rw [Fields.Distinct, Fields.names, List.map_map]
      exact (inverse.perm_sorted.map _).nodup_iff.mpr hn
    exact ⟨.ofEntries _ hd, invert_eq_ok_iff.mpr ⟨hn, rfl⟩⟩

/-- A token that is refused is that of an earlier id. -/
theorem hasFault_of_tokensInto {done pairs : List (Nat × String)} {e : Error}
    (hi : inverse.sorted.entries = done ++ pairs) (hv : vocabulary.entries = done.map Prod.swap)
    (h : tokensInto vocabulary pairs = .error e) :
    ∃ fault, e = .bijection fault ∧ inverse.HasFault fault := by
  induction pairs generalizing vocabulary done with
  | nil => cases h
  | cons pair rest ih =>
    obtain ⟨id, token⟩ := pair
    rw [tokensInto] at h
    cases ht : vocabulary.idOf? token with
    | some earlier =>
      rw [ht] at h
      cases h
      have he : (earlier, token) ∈ done := by
        rw [← List.mem_map_swap, ← hv]
        exact Fields.mem_of_get? ht
      have hs := hi ▸ inverse.ascending_sorted
      have hfound : ∀ pair ∈ done ++ (id, token) :: rest, inverse.tokenOf? pair.1 = some pair.2 :=
        fun pair hm => Fields.get?_of_mem inverse.distinct (inverse.perm_sorted.subset (hi ▸ hm))
      exact ⟨_, rfl, (List.pairwise_append.mp hs).2.2 _ he _ List.mem_cons_self,
        hfound _ (List.mem_append_left _ he), hfound (id, token) (by simp)⟩
    | none =>
      -- the entries are the pairs taken so far, turned round
      rw [ht] at h
      have he := Fields.put_of_not_mem (Fields.get?_eq_none_iff.mp ht) id
      refine ih (show _ = (done ++ [(id, token)]) ++ rest by simp [hi]) ?_ h
      rw [List.map_append, ← hv]
      exact he

theorem exists_fault (h : ¬ inverse.tokens.Nodup) :
    ∃ fault, inverse.invert = .error (.bijection fault) ∧ inverse.HasFault fault := by
  cases hi : inverse.invert with
  | ok vocabulary => exact absurd (invert_ok_iff.mp ⟨vocabulary, hi⟩) h
  | error e =>
    obtain ⟨fault, rfl, hf⟩ := hasFault_of_tokensInto (List.nil_append _).symm rfl hi
    exact ⟨fault, rfl, hf⟩

end Inverse

namespace Vocabulary

variable {vocabulary : Vocabulary} {inverse : Inverse}

/-- An id is too great or held by two tokens, as the fault says. -/
def HasFault (vocabulary : Vocabulary) : BijectionFault → Prop
  | .idOutOfRange id token size =>
    vocabulary.idOf? token = some id ∧ size = vocabulary.size ∧ size ≤ id
  | .sharedId id first second => first ≠ second ∧
      vocabulary.idOf? first = some id ∧ vocabulary.idOf? second = some id
  | .sharedToken .. => False

/-- An id that is refused is too great or that of an earlier token. -/
theorem hasFault_of_idsInto {done pairs : List (String × Nat)} {e : Error}
    (hv : vocabulary.entries = done ++ pairs) (hi : inverse.entries = done.map Prod.swap)
    (h : idsInto vocabulary.size inverse pairs = .error e) :
    ∃ fault, e = .bijection fault ∧ vocabulary.HasFault fault := by
  induction pairs generalizing inverse done with
  | nil => cases h
  | cons pair rest ih =>
    obtain ⟨token, id⟩ := pair
    have hfound : ∀ pair ∈ done ++ (token, id) :: rest, vocabulary.idOf? pair.1 = some pair.2 :=
      fun pair hm => Fields.get?_of_mem vocabulary.distinct (hv ▸ hm)
    rw [idsInto] at h
    split at h
    · rename_i hid
      cases h
      exact ⟨_, rfl, hfound (token, id) (by simp), rfl, hid⟩
    cases ht : inverse.tokenOf? id with
    | some earlier =>
      rw [ht] at h
      cases h
      have he : (earlier, id) ∈ done := by
        rw [← List.mem_map_swap, ← hi]
        exact Fields.mem_of_get? ht
      have hd := vocabulary.distinct
      rw [hv, Fields.Distinct, Fields.names_append] at hd
      exact ⟨_, rfl, (List.nodup_append.mp hd).2.2 _ (List.mem_map_of_mem he) _ List.mem_cons_self,
        hfound _ (List.mem_append_left _ he), hfound (token, id) (by simp)⟩
    | none =>
      rw [ht] at h
      have he := Fields.put_of_not_mem (Fields.get?_eq_none_iff.mp ht) token
      refine ih (show _ = (done ++ [(token, id)]) ++ rest by simp [hv]) ?_ h
      rw [List.map_append, ← hi]
      exact he

theorem exists_fault (h : ¬ vocabulary.Gapless) :
    ∃ fault, vocabulary.invert = .error (.bijection fault) ∧ vocabulary.HasFault fault := by
  cases hi : vocabulary.invert with
  | ok inverse => exact absurd (invert_ok_iff.mp ⟨inverse, hi⟩) h
  | error e =>
    rw [invert] at hi
    cases hids : idsInto vocabulary.size .empty vocabulary.entries with
    | ok result => simp [hids] at hi
    | error e' =>
      obtain ⟨fault, rfl, hf⟩ := hasFault_of_idsInto (List.nil_append _).symm rfl hids
      rw [hids] at hi
      exact ⟨fault, hi.symm, hf⟩

/-- The two say the same of ids and tokens. -/
def Matches (vocabulary : Vocabulary) (inverse : Inverse) : Prop :=
  ∀ id token, inverse.tokenOf? id = some token ↔ vocabulary.idOf? token = some id

theorem matches_of_perm (h : inverse.entries.Perm (vocabulary.entries.map Prod.swap)) :
    vocabulary.Matches inverse := by
  intro id token
  have hm : (id, token) ∈ inverse.entries ↔ (token, id) ∈ vocabulary.entries := by
    rw [h.mem_iff, List.mem_map_swap]
  have hi : inverse.tokenOf? id = some token ↔ (id, token) ∈ inverse.entries :=
    ⟨Fields.mem_of_get?, Fields.get?_of_mem inverse.distinct⟩
  have hv : vocabulary.idOf? token = some id ↔ (token, id) ∈ vocabulary.entries :=
    ⟨Fields.mem_of_get?, Fields.get?_of_mem vocabulary.distinct⟩
  rw [hi, hv, hm]

/-- The order of the entries does not count. -/
theorem same_of_perm {again : Vocabulary} (h : again.entries.Perm vocabulary.entries) :
    again.same vocabulary ∧ again.nextId = vocabulary.nextId := by
  have hi : again.ids.Perm vocabulary.ids := h.map _
  exact ⟨same_iff.mpr (Fields.get?_of_perm again.distinct h), nextId_eq_of_ids fun _ => hi.mem_iff⟩

theorem perm_swap_of_swap {pairs : List (Nat × String)} {entries : List (String × Nat)}
    (h : pairs.Perm (entries.map Prod.swap)) : (pairs.map Prod.swap).Perm entries := by
  have hs := h.map Prod.swap
  rwa [List.map_map, Prod.swap_swap_eq, List.map_id] at hs

/-- An inverse has the entries of the vocabulary turned round, in ascending order. -/
theorem entries_of_invert (h : vocabulary.invert = .ok inverse) :
    inverse.entries.Perm (vocabulary.entries.map Prod.swap) ∧
      inverse.entries.Pairwise (·.1 < ·.1) := by
  obtain ⟨tokens, ht, he⟩ := exists_enumerates h
  refine ⟨he ▸ (List.Perm.symm ht).map Prod.swap, List.pairwise_map.mp ?_⟩
  rw [he, List.map_map]
  have hi : tokens.zipIdx.map (·.2) = List.range' 0 tokens.length := List.zipIdx_map_snd 0 tokens
  exact hi ▸ List.pairwise_lt_range' 1

/-- `inverse` lists the ids in ascending order with the tokens that have them, and
inverting it gives the vocabulary back, with the same next id. -/
structure IsInverse (vocabulary : Vocabulary) (inverse : Inverse) : Prop where
  ascending : inverse.entries.Pairwise (·.1 < ·.1)
  same : vocabulary.Matches inverse
  returns : ∃ again, inverse.invert = .ok again ∧ again.same vocabulary ∧
    again.nextId = vocabulary.nextId

theorem isInverse_of_invert (h : vocabulary.invert = .ok inverse) :
    vocabulary.IsInverse inverse := by
  obtain ⟨hp, ha⟩ := entries_of_invert h
  have hn : inverse.tokens.Nodup := by
    have ht : inverse.tokens.Perm (Fields.names vocabulary.entries) := by
      have hm := hp.map (·.2)
      rwa [List.map_map] at hm
    exact ht.nodup_iff.mpr vocabulary.distinct
  obtain ⟨again, hi⟩ := Inverse.invert_ok_iff.mpr hn
  have he : again.entries.Perm vocabulary.entries := by
    rw [(Inverse.invert_eq_ok_iff.mp hi).2]
    exact perm_swap_of_swap (inverse.perm_sorted.trans hp)
  exact ⟨ha, matches_of_perm hp, again, hi, same_of_perm he⟩

end Vocabulary

namespace Inverse

variable {inverse : Inverse} {vocabulary : Vocabulary}

/-- The entries turned round and turned round again. -/
theorem entries_of_invert (h : inverse.invert = .ok vocabulary) :
    inverse.entries.Perm (vocabulary.entries.map Prod.swap) := by
  rw [(invert_eq_ok_iff.mp h).2, List.map_map, Prod.swap_swap_eq, List.map_id]
  exact inverse.perm_sorted.symm

theorem returns_of_invert (h : inverse.invert = .ok vocabulary) (hg : inverse.Gapless) :
    ∃ again, vocabulary.invert = .ok again ∧ Fields.same again.entries inverse.entries := by
  have hp := entries_of_invert h
  have hids : (Fields.names inverse.entries).Perm vocabulary.ids := by
    have hm := hp.map (·.1)
    rwa [List.map_map] at hm
  have hs : inverse.size = vocabulary.size := by
    rw [size, hp.length_eq, List.length_map, Vocabulary.size]
  obtain ⟨again, hi⟩ := Vocabulary.invert_ok_iff.mpr (hids.symm.trans (hs ▸ hg))
  refine ⟨again, hi, Fields.same_of_perm again.distinct ?_⟩
  exact (Vocabulary.entries_of_invert hi).1.trans hp.symm

end Inverse

namespace Vocabulary

/-- A vocabulary has an inverse just if its ids are `0, 1, …`, each held by one token,
and inverting the inverse gives it back. A mapping from ids to tokens is inverted just if
its tokens differ, and comes back if its ids are `0, 1, …`. What cannot be inverted has the
fault that is reported. -/
theorem invert_twice (vocabulary : Vocabulary) (inverse : Inverse) :
    (((∃ result, vocabulary.invert = .ok result) ↔ vocabulary.Gapless) ∧
      (¬ vocabulary.Gapless → ∃ fault, vocabulary.invert = .error (.bijection fault) ∧
        vocabulary.HasFault fault) ∧
      ∀ result, vocabulary.invert = .ok result → vocabulary.IsInverse result) ∧
    ((∃ result, inverse.invert = .ok result) ↔ inverse.tokens.Nodup) ∧
      (¬ inverse.tokens.Nodup → ∃ fault, inverse.invert = .error (.bijection fault) ∧
        inverse.HasFault fault) ∧
      ∀ result, inverse.invert = .ok result → result.Matches inverse ∧
        (inverse.Gapless → ∃ again, result.invert = .ok again ∧
          Fields.same again.entries inverse.entries) :=
  ⟨⟨invert_ok_iff, exists_fault, fun _ => isInverse_of_invert⟩,
    Inverse.invert_ok_iff, Inverse.exists_fault, fun _ h =>
      ⟨matches_of_perm (Inverse.entries_of_invert h), Inverse.returns_of_invert h⟩⟩

/-- Three tokens whose ids are without gaps, in another order. -/
def permuted : Vocabulary :=
  ofPairs [("if", 2), ("(", 0), ("x", 1)]

/-- Two tokens with one id. -/
def shared : Vocabulary :=
  ofPairs [("if", 0), ("(", 1), ("x", 1)]

/-- Two ids without a gap, in descending order. -/
def descending : Inverse :=
  .ofPairs [(1, "x"), (0, "if")]

/-- Two ids with one token. -/
def repeated : Inverse :=
  .ofPairs [(7, "x"), (2, "if"), (3, "x")]

theorem invert_twice_permuted :
    (∃ result, permuted.invert = .ok result ∧ permuted.IsInverse result) ∧
    (∃ fault, shared.invert = .error (.bijection fault) ∧ shared.HasFault fault) ∧
    (∃ result, descending.invert = .ok result ∧ result.Matches descending ∧
      ∃ again, result.invert = .ok again ∧ Fields.same again.entries descending.entries) ∧
    ∃ fault, repeated.invert = .error (.bijection fault) ∧ repeated.HasFault fault := by
  obtain ⟨⟨hok, -, hinverse⟩, hok', -, hreturns⟩ := invert_twice permuted descending
  obtain ⟨⟨-, hfault, -⟩, -, hfault', -⟩ := invert_twice shared repeated
  have hp : permuted.Gapless := (by decide : permuted.ids.Perm (List.range permuted.size))
  have hs : ¬ shared.Gapless := (by decide : ¬ shared.ids.Perm (List.range shared.size))
  have hd : descending.Gapless :=
    (by decide : (Fields.names descending.entries).Perm (List.range descending.size))
  obtain ⟨result, hr⟩ := hok.mpr hp
  obtain ⟨result', hr'⟩ := hok'.mpr (by decide)
  obtain ⟨hm, hback⟩ := hreturns result' hr'
  exact ⟨⟨result, hr, hinverse result hr⟩, hfault hs, ⟨result', hr', hm, hback hd⟩,
    hfault' (by decide)⟩

end Vocabulary

end TreeSeq
