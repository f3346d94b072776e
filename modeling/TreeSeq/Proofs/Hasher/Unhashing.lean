import TreeSeq.Proofs.Hasher.Growth
import TreeSeq.Proofs.Slots
import TreeSeq.Proofs.Vocabulary.File

/-!
# Hashing what a stream stands for

A stream stands for its tokens with spaces between them. If no token holds a blank, they
are the words of that text again, but for the empty one, which is no word: the text hashes
to the stream without the ids of the empty token (`hash_of_unhash`). A stream stands for
nothing just if one of its ids is too great (`hash_unhash`).
-/

namespace TreeSeq.Hasher

variable {hasher : Hasher} {vocabulary : Vocabulary} {stream : TokenStream} {text : String}
  {tokens found : List String}

/-- The ids of the tokens at some positions are these positions. The empty token is
dropped. -/
theorem filterMap_idOf? (ht : vocabulary.Enumerates tokens)
    (hf : List.Forall₂ (fun id token => tokens[id]? = some token) stream found) :
    (found.filter (!·.isEmpty)).filterMap vocabulary.idOf? =
      stream.filter fun id => vocabulary.idOf? "" ≠ some id := by
  induction hf with
  | nil => rfl
  | @cons id token _ _ hid _ ih =>
    have htoken := ht.idOf?_eq_some_iff.mpr hid
    have hempty : vocabulary.idOf? "" = some id ↔ token = "" := by
      rw [ht.idOf?_eq_some_iff, hid, Option.some.injEq]
    by_cases he : token = ""
    · rw [List.filter_cons_of_neg (by simp [he]), List.filter_cons_of_neg (by simp [hempty, he]),
        ih]
    · rw [List.filter_cons_of_pos (by simp [he]), List.filter_cons_of_pos (by simp [hempty, he]),
        List.filterMap_cons_some htoken, ih]

theorem hash_of_unhash (hb : hasher.vocabulary.BlankFree) (h : hasher.unhash stream = .ok text) :
    hasher.hash text = stream.filter fun id => hasher.vocabulary.idOf? "" ≠ some id := by
  obtain ⟨tokens, ht⟩ := hasher.exists_enumerates
  obtain ⟨found, hf, rfl⟩ := (unhash_eq_ok_iff ht).mp h
  have hblank : ∀ token ∈ found, Text.anyBlank token = false := by
    intro token hm
    obtain ⟨id, -, hid⟩ := exists_of_forall₂ hf token hm
    exact hb token (ht.names.mem_iff.mpr (List.mem_of_getElem? hid))
  rw [hash, Text.words_intercalate hblank, filterMap_idOf? ht hf]

/-- A stream stands for nothing just if one of its ids is the number of tokens or more,
and the first such id is told. If no token holds a blank, what it stands for hashes to the
stream without the ids of the empty token. -/
theorem hash_unhash (h : ofVocabulary vocabulary = .ok hasher) (hb : vocabulary.BlankFree)
    (stream : TokenStream) :
    ((∃ e, hasher.unhash stream = .error e) ↔ ∃ id ∈ stream, vocabulary.size ≤ id) ∧
    (∀ e, hasher.unhash stream = .error e ↔
      ∃ id, stream.find? (vocabulary.size ≤ ·) = some id ∧ e = .unknownId id) ∧
    ∀ text, hasher.unhash stream = .ok text →
      hasher.hash text = stream.filter fun id => vocabulary.idOf? "" ≠ some id := by
  obtain rfl := ofVocabulary_eq_ok_iff.mp h
  obtain ⟨tokens, ht⟩ := hasher.exists_enumerates
  have herror : ∀ e, hasher.unhash stream = .error e ↔
      ∃ id, stream.find? (hasher.vocabulary.size ≤ ·) = some id ∧ e = .unknownId id := fun e => by
    rw [ht.size]
    exact unhash_eq_error_iff ht
  refine ⟨?_, herror, fun text => hash_of_unhash hb⟩
  have hfirst : (∃ e, hasher.unhash stream = .error e) ↔
      (stream.find? (hasher.vocabulary.size ≤ ·)).isSome := by
    simp only [herror, Option.isSome_iff_exists]
    constructor
    · rintro ⟨_, id, hf, rfl⟩
      exact ⟨id, hf⟩
    · rintro ⟨id, hf⟩
      exact ⟨_, id, hf, rfl⟩
  rw [hfirst, List.find?_isSome]
  simp only [decide_eq_true_eq]

/-- The empty token in front, twice in a row and at the end, and ids that are too great. -/
theorem hash_unhash_permuted :
    ∃ hasher, ofVocabulary permuted = .ok hasher ∧ permuted.BlankFree ∧
      (∃ text, hasher.unhash [2, 1, 2, 2, 0, 2] = .ok text ∧ hasher.hash text = [1, 0]) ∧
      hasher.unhash [2, 3, 1, 9] = .error (.unknownId 3) := by
  have hg : permuted.Gapless := Vocabulary.gapless_iff.mpr (by decide)
  obtain ⟨inverse, hi⟩ := Vocabulary.invert_ok_iff.mpr hg
  have h : ofVocabulary permuted = .ok ⟨permuted, inverse, hi⟩ := ofVocabulary_eq_ok_iff.mpr rfl
  have hb : permuted.BlankFree :=
    (by decide : ∀ token ∈ Fields.names permuted.entries, Text.anyBlank token = false)
  refine ⟨_, h, hb, ?_, ((hash_unhash h hb _).2.1 _).mpr ⟨3, by decide, rfl⟩⟩
  obtain ⟨hfails, -, hash⟩ := hash_unhash h hb [2, 1, 2, 2, 0, 2]
  cases hu : unhash ⟨permuted, inverse, hi⟩ [2, 1, 2, 2, 0, 2] with
  | error e => exact absurd (hfails.mp ⟨e, hu⟩) (by decide)
  | ok text => exact ⟨text, rfl, (hash text hu).trans (by decide)⟩

end TreeSeq.Hasher
