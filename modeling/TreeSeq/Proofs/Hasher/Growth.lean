import TreeSeq.Proofs.Hasher.Streams
import TreeSeq.Proofs.Text.Lines
import TreeSeq.Proofs.Vocabulary.Growth

/-!
# Hashing with a vocabulary that has grown

A vocabulary without gaps that grows lists its new tokens behind those that were there
(`Extends.exists_enumerates`). Data hashed before stay good: streams stand for the same
texts, lines have the same ids and further ones for new tokens, and the file goes on
where it ended (`conserved_of_grown`).
-/

namespace TreeSeq

open Relation (ReflTransGen)

variable {vocabulary grown : Vocabulary} {tokens : List String}

namespace Vocabulary

/-- New tokens are listed behind the others. -/
theorem Extends.exists_enumerates (h : grown.Extends vocabulary)
    (ht : vocabulary.Enumerates tokens) : ∃ added, grown.Enumerates (tokens ++ added) := by
  obtain ⟨added, ha⟩ := h
  refine ⟨added, ?_⟩
  rw [Enumerates, ha, List.zipIdx_append, nextId_of_gapless ht.gapless, ht.size, Nat.zero_add]
  exact ht.append_right _

/-- A token that was there is the one that has its id below the old size. -/
theorem filter_idOf? {added : List String} (ht : vocabulary.Enumerates tokens)
    (hg : grown.Enumerates (tokens ++ added)) (token : String) :
    (grown.idOf? token).filter (· < vocabulary.size) = vocabulary.idOf? token := by
  refine Option.ext fun id => ?_
  rw [Option.filter_eq_some_iff, decide_eq_true_eq, hg.idOf?_eq_some_iff, ht.idOf?_eq_some_iff,
    ht.size]
  constructor
  · rintro ⟨hid, hlt⟩
    rwa [List.getElem?_append_left hlt] at hid
  · intro hid
    have hlt := (List.getElem?_eq_some_iff.mp hid).1
    exact ⟨by rwa [List.getElem?_append_left hlt], hlt⟩

end Vocabulary

namespace Hasher

variable {hasher further : Hasher}

theorem hash_filter {added : List String} (ht : hasher.vocabulary.Enumerates tokens)
    (hg : further.vocabulary.Enumerates (tokens ++ added)) (line : String) :
    (further.hash line).filter (· < hasher.vocabulary.size) = hasher.hash line := by
  rw [hash, hash, List.filter_filterMap]
  exact List.filterMap_congr fun token _ => Vocabulary.filter_idOf? ht hg token

theorem unhash_of_appended {added : List String} (ht : hasher.vocabulary.Enumerates tokens)
    (hg : further.vocabulary.Enumerates (tokens ++ added)) {stream : TokenStream} {text : String}
    (h : hasher.unhash stream = .ok text) : further.unhash stream = .ok text := by
  obtain ⟨found, hf, rfl⟩ := (unhash_eq_ok_iff ht).mp h
  refine (unhash_eq_ok_iff hg).mpr ⟨found, hf.imp fun id token hid => ?_, rfl⟩
  have hlt := (List.getElem?_eq_some_iff.mp hid).1
  rwa [List.getElem?_append_left hlt]

/-- A vocabulary that has a hasher has one after it has grown by any steps. A stream that
stands for a text stands for the same text, the ids of a line that are not new are those
it had, and what is saved has one line more for each new token. -/
theorem conserved_of_grown (h : ofVocabulary vocabulary = .ok hasher)
    (hg : ReflTransGen Vocabulary.Grows vocabulary grown) :
    ∃ further, ofVocabulary grown = .ok further ∧
      (∀ stream text, hasher.unhash stream = .ok text → further.unhash stream = .ok text) ∧
      (∀ line, (further.hash line).filter (· < vocabulary.size) = hasher.hash line) ∧
      ∃ text added, vocabulary.save = .ok text ∧
        grown.save = .ok (text ++ Text.unlines added) := by
  obtain rfl := ofVocabulary_eq_ok_iff.mp h
  obtain ⟨tokens, ht⟩ := hasher.exists_enumerates
  obtain ⟨added, ha⟩ := (Vocabulary.extends_of_grown hg).exists_enumerates ht
  obtain ⟨inverse, hi, -⟩ := ha.invert
  have hf : ofVocabulary grown = .ok ⟨grown, inverse, hi⟩ := ofVocabulary_eq_ok_iff.mpr rfl
  refine ⟨_, hf, fun stream text hs => unhash_of_appended ht ha hs,
    fun line => hash_filter ht ha line, _, added, ht.save, ?_⟩
  rw [ha.save, Text.unlines_append]

/-- Ids in another order than that of the tokens, and the empty token. -/
def permuted : Vocabulary :=
  .ofPairs [("if", 1), ("", 2), ("(", 0)]

/-- The vocabulary grown by a token with a blank and by a line. -/
theorem conserved_of_grown_line :
    ∃ hasher, ofVocabulary permuted = .ok hasher ∧
      ReflTransGen Vocabulary.Grows permuted ((permuted.insert "a b").addLine "if ( x )") ∧
      ∃ further, ofVocabulary ((permuted.insert "a b").addLine "if ( x )") = .ok further ∧
        (∀ stream text, hasher.unhash stream = .ok text → further.unhash stream = .ok text) ∧
        (further.hash "x ( if").filter (· < permuted.size) = hasher.hash "x ( if" := by
  obtain ⟨inverse, hi⟩ := Vocabulary.invert_ok_iff.mpr
    (show permuted.Gapless from Vocabulary.gapless_iff.mpr (by decide))
  have h : ofVocabulary permuted = .ok ⟨permuted, inverse, hi⟩ := ofVocabulary_eq_ok_iff.mpr rfl
  have hg : ReflTransGen Vocabulary.Grows permuted
      ((permuted.insert "a b").addLine "if ( x )") :=
    .tail (.single (.insert _ "a b")) (.addLine _ "if ( x )")
  obtain ⟨further, hf, hu, hh, -⟩ := conserved_of_grown h hg
  exact ⟨_, h, hg, further, hf, hu, hh "x ( if"⟩

end Hasher

end TreeSeq
