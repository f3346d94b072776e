import TreeSeq.Proofs.Sequence.RoundTrip
import Mathlib.Data.List.Perm.Basic

/-!
# Forests of encoded trees

Each of several trees is encoded from a base of its own, and takes up the interval of
indices from there on. All references of a tree stay in its interval, so the records
of all trees, in whatever order, make up a forest just if no two intervals share an
index.

* `nodup_indices_iff`: indices are distinct just if the intervals are apart;
* `unfolds_of_encodes`: the bases unfold into the trees, with all records;
* `forest_of_ascending`: trees with ascending bases are found in this order.
-/

namespace TreeSeq.Sequence

/-- A tree, and the index that it is encoded from. -/
structure Encoding where
  tree : Node
  base : Nat

namespace Encoding

/-- The index is in the interval that the tree takes up. -/
def Occupies (encoding : Encoding) (i : Nat) : Prop :=
  encoding.base ≤ i ∧ i < encoding.base + encoding.tree.count

/-- Two trees take up no index in common. -/
def Separate (a b : Encoding) : Prop :=
  ∀ i, a.Occupies i → ¬ b.Occupies i

/-- The trees, from their bases on, are encoded into these sequences. -/
def Encodes (encodings : List Encoding) (sequences : List Sequence) : Prop :=
  List.Forall₂ (fun encoding sequence => encoding.tree.encode encoding.base = .ok sequence)
    encodings sequences

/-- By ascending bases. -/
def sorted (encodings : List Encoding) : List Encoding :=
  encodings.mergeSort (·.base ≤ ·.base)

variable {a b : Encoding} {encodings : List Encoding} {sequences : List Sequence}
  {records : Sequence}

theorem occupies_base (a : Encoding) : a.Occupies a.base := by
  have hpos : 0 < a.tree.count := by
    cases a.tree
    simp only [Node.count]
    omega
  exact ⟨Nat.le_refl _, by omega⟩

/-- The indices of the records are the intervals, one after the other. -/
theorem indices_of_encodes (h : Encodes encodings sequences) :
    sequences.flatten.map (·.index) =
      encodings.flatMap fun a => List.range' a.base a.tree.count := by
  induction h with
  | nil => rfl
  | cons ha _ ih =>
    rw [List.flatten_cons, List.map_append, ih, (Node.unfolds_of_encode ha).2, List.flatMap_cons]

theorem separate_iff :
    Separate a b ↔
      (List.range' a.base a.tree.count).Disjoint (List.range' b.base b.tree.count) := by
  simp only [Separate, Occupies, List.Disjoint, List.mem_range'_1]

theorem nodup_indices_iff (h : Encodes encodings sequences) :
    (sequences.flatten.map (·.index)).Nodup ↔ encodings.Pairwise Separate := by
  rw [indices_of_encodes h, List.nodup_flatMap]
  refine (and_iff_right fun a _ => List.nodup_range').trans (List.Pairwise.iff ?_)
  exact fun {a b} => separate_iff.symm

theorem unfolds_of_encodes (h : Encodes encodings sequences) :
    Unfolds (encodings.map (·.base)) (encodings.map (·.tree)) sequences.flatten := by
  induction h with
  | nil => exact .nil
  | cons ha _ ih => exact (Node.unfolds_of_encode ha).1.append ih

theorem exists_encodes
    (ht : ∀ a ∈ encodings, ∀ node ∈ a.tree.preorder, node.nodeType ≠ "") :
    ∃ sequences, Encodes encodings sequences := by
  induction encodings with
  | nil => exact ⟨[], .nil⟩
  | cons a rest ih =>
    obtain ⟨sequence, ha, -⟩ := Node.encode_eq_ok (ht a List.mem_cons_self) a.base
    obtain ⟨sequences, hr⟩ := ih fun b hb => ht b (List.mem_cons_of_mem a hb)
    exact ⟨sequence :: sequences, .cons ha hr⟩

/-- No reference leads below the base of a tree. -/
theorem base_le_of_reaches (h : Encodes encodings sequences)
    (hs : sequences.flatten ⊆ records) (hd : (records.map (·.index)).Nodup) :
    ∀ i ∈ encodings.map (·.base), ∀ j, records.Reaches i j → i ≤ j := by
  induction h with
  | nil => simp
  | @cons a sequence rest _ ha _ ih =>
    rw [List.flatten_cons, List.append_subset] at hs
    intro i hi j hij
    rcases List.mem_cons.mp hi with rfl | hi
    · obtain ⟨hu, hindices⟩ := Node.unfolds_of_encode ha
      have hj := hu.closed hs.1 hd (hu.refs_subset List.mem_cons_self) hij
      rw [hindices, List.mem_range'_1] at hj
      exact hj.1
    · exact ih hs.2 i hi j hij

/-- Trees with ascending bases, apart from each other, are found in this order. -/
theorem forest_of_ascending (h : Encodes encodings sequences)
    (hp : records.Perm sequences.flatten) (ha : encodings.Pairwise Separate)
    (hb : (encodings.map (·.base)).Pairwise (· < ·)) :
    records.forest = .ok (encodings.map (·.tree)) := by
  have hd : (records.map (·.index)).Nodup :=
    (hp.map _).nodup_iff.mpr ((nodup_indices_iff h).mpr ha)
  have hu := unfolds_of_encodes h
  obtain ⟨hw, hr⟩ := wellLinked_of_unfolds hd hu hp.symm hb
    (base_le_of_reaches h hp.symm.subset hd)
  exact forest_eq_ok_iff.mpr ⟨hw, _, hr ▸ hu, hp.symm⟩

theorem perm_sorted (encodings : List Encoding) : (sorted encodings).Perm encodings :=
  List.mergeSort_perm _ _

theorem separate_symm (h : Separate a b) : Separate b a :=
  fun i hb ha => h i ha hb

/-- Bases of trees that are apart are distinct, so they ascend strictly. -/
theorem ascending_sorted (ha : encodings.Pairwise Separate) :
    ((sorted encodings).map (·.base)).Pairwise (· < ·) := by
  have hs : (sorted encodings).Pairwise (·.base ≤ ·.base) :=
    (List.pairwise_mergeSort (by simp; omega) (by simp; omega) _).imp (by simp)
  have hseparate : (sorted encodings).Pairwise Separate :=
    (perm_sorted encodings).symm.pairwise ha separate_symm
  refine List.pairwise_map.mpr ((hs.and hseparate).imp fun {a b} ⟨hle, hab⟩ => ?_)
  refine Nat.lt_of_le_of_ne hle fun he => ?_
  exact hab a.base a.occupies_base (he ▸ b.occupies_base)

/-- Trees that are apart are found by ascending bases. -/
theorem forest_of_separate (h : Encodes encodings sequences) (hp : records.Perm sequences.flatten)
    (ha : encodings.Pairwise Separate) :
    records.forest = .ok ((sorted encodings).map (·.tree)) := by
  obtain ⟨sequences', h', hsp⟩ := List.perm_comp_forall₂ (perm_sorted encodings) h
  exact forest_of_ascending h' (hp.trans hsp.symm.flatten)
    ((perm_sorted encodings).symm.pairwise ha separate_symm) (ascending_sorted ha)

/-- Of trees that are not apart two records have the same index. -/
theorem forest_of_not_separate (h : Encodes encodings sequences)
    (hp : records.Perm sequences.flatten) (ha : ¬ encodings.Pairwise Separate) :
    ∃ i, records.forest = .error (.sequence (.duplicateIndex i)) :=
  forest_of_not_nodup fun hd => ha ((nodup_indices_iff h).mp ((hp.map _).nodup_iff.mp hd))

end Encoding

open Encoding

/-- Trees in which every node has a type are encoded from any bases on. The records,
in any order, are decoded just if no two trees have an index in common, and into these
trees, by ascending bases. Otherwise the sequence is malformed. They make up a single
tree just if there is one. -/
theorem forest_of_encodings (encodings : List Encoding)
    (ht : ∀ a ∈ encodings, ∀ node ∈ a.tree.preorder, node.nodeType ≠ "") :
    ∃ sequences, Encodes encodings sequences ∧
      ∀ records : Sequence, records.Perm sequences.flatten →
        ((∃ trees, records.forest = .ok trees) ↔ encodings.Pairwise Separate) ∧
        (∀ trees, records.forest = .ok trees → trees = (sorted encodings).map (·.tree)) ∧
        (¬ encodings.Pairwise Separate → ∃ fault, records.forest = .error (.sequence fault)) ∧
        ((∃ tree, records.decode = .ok tree) ↔ encodings.length = 1) := by
  obtain ⟨sequences, h⟩ := exists_encodes ht
  refine ⟨sequences, h, fun records hp => ?_⟩
  have hseparate : ∀ trees, records.forest = .ok trees → encodings.Pairwise Separate := by
    intro trees hf
    by_contra ha
    obtain ⟨i, he⟩ := forest_of_not_separate h hp ha
    rw [hf] at he
    cases he
  have hsorted : ∀ trees, records.forest = .ok trees → trees = (sorted encodings).map (·.tree) := by
    intro trees hf
    rw [forest_of_separate h hp (hseparate trees hf)] at hf
    exact (Except.ok.inj hf).symm
  have hlength : ((sorted encodings).map (·.tree)).length = encodings.length := by
    rw [List.length_map, (perm_sorted encodings).length_eq]
  refine ⟨⟨fun ⟨trees, hf⟩ => hseparate trees hf, fun ha => ⟨_, forest_of_separate h hp ha⟩⟩, hsorted,
    fun ha => ?_, fun ⟨tree, hf⟩ => ?_, fun h1 => ?_⟩
  · obtain ⟨i, he⟩ := forest_of_not_separate h hp ha
    exact ⟨_, he⟩
  · rw [← hlength, ← hsorted _ (decode_eq_ok_iff.mp hf), List.length_singleton]
  · obtain ⟨tree, he⟩ := List.length_eq_one_iff.mp (hlength.trans h1)
    obtain ⟨a, rfl⟩ := List.length_eq_one_iff.mp h1
    exact ⟨tree, decode_eq_ok_iff.mpr (he ▸ forest_of_separate h hp (List.pairwise_singleton _ a))⟩

/-- Two trees, of which the second has the lower base. -/
def returnBeforeIf : List Encoding :=
  [⟨(Node.ofType "If").withSlot "cond" [.ofType "ID"], 5⟩,
    ⟨(Node.ofType "Return").withSlot "expr" [.ofType "ID"], 3⟩]

/-- However the records of the two trees are mixed, the one with the lower base is found
first. -/
theorem forest_of_encodings_mixed :
    ∃ sequences, Encodes returnBeforeIf sequences ∧
      ∀ records : Sequence, records.Perm sequences.flatten →
        records.forest = .ok [(Node.ofType "Return").withSlot "expr" [.ofType "ID"],
          (Node.ofType "If").withSlot "cond" [.ofType "ID"]] := by
  obtain ⟨sequences, h, hf⟩ := forest_of_encodings returnBeforeIf (by decide)
  have hs : returnBeforeIf.Pairwise Separate := by
    refine List.pairwise_pair.mpr fun i => ?_
    show 5 ≤ i ∧ i < 7 → ¬ (3 ≤ i ∧ i < 5)
    omega
  refine ⟨sequences, h, fun records hp => ?_⟩
  obtain ⟨hiff, hsorted, -⟩ := hf records hp
  obtain ⟨trees, he⟩ := hiff.mpr hs
  rw [he, hsorted trees he]
  simp [sorted, returnBeforeIf, List.mergeSort]

end TreeSeq.Sequence
