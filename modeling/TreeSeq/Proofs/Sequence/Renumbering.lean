import TreeSeq.Proofs.Sequence.RoundTrip
import Mathlib.Order.Interval.Set.Defs
import Mathlib.Data.Set.Function

/-!
# Encoding a tree that was decoded

Encoding numbers the nodes of a decoded tree in pre-order, whatever the indices
were that it was decoded from, so it gives the records of the sequence back, put
in pre-order and renumbered.

* `Unfolds.eq_map_renumber`: two lists of records that unfold into the same trees
  differ in their indices only;
* `encode_decoded`: the records of the encoded tree, and when they are those that
  it was decoded from.
-/

namespace TreeSeq

namespace Record

variable {φ : Nat → Nat}

/-- The record with other numbers for its index and its references. -/
def renumber (φ : Nat → Nat) (record : Record) : Record :=
  { record with
    index := φ record.index
    slotRefs := record.slotRefs.map fun slot => (slot.1, slot.2.map φ) }

/-- A record is kept if its numbers are. -/
theorem renumber_eq_self {record : Record} (hi : φ record.index = record.index)
    (hc : ∀ i ∈ record.children, φ i = i) : record.renumber φ = record := by
  have hs : (record.slotRefs.map fun slot => (slot.1, slot.2.map φ)) = record.slotRefs := by
    refine (List.map_congr_left fun slot hm => ?_).trans (List.map_id _)
    have hr : slot.2.map φ = slot.2 := (List.map_congr_left fun i hi =>
      hc i (List.mem_flatMap.mpr ⟨slot, hm, hi⟩)).trans (List.map_id _)
    rw [hr]
    rfl
  rw [renumber, hi, hs]

end Record

namespace Sequence

namespace Unfolds

variable {refs refs' : List Nat} {nodes nodes' : List Node} {records records' : List Record}

/-- Records that unfold into the same trees are the same but for their numbers. -/
theorem eq_map_renumber {φ : Nat → Nat} (h : Unfolds refs nodes records)
    (h' : Unfolds refs' nodes records')
    (hφ : records'.map (·.index) = (records.map (·.index)).map φ) :
    refs' = refs.map φ ∧ records' = records.map (Record.renumber φ) := by
  induction h generalizing refs' records' with
  | nil =>
    cases h'
    exact ⟨rfl, rfl⟩
  | @cons record children nodes below after refs hb _ ihb iha =>
    obtain ⟨record', refs', children', below', after', rfl, hnode, rfl, hb', ha'⟩ := h'.uncons_node
    have hchildren : children' = children := by
      rw [← Record.children_node record hb.length_eq, hnode,
        Record.children_node record' hb'.length_eq]
    subst hchildren
    have hl : below'.length = below.length := hb'.countNodes_eq.symm.trans hb.countNodes_eq
    simp only [List.map_cons, List.map_append, List.cons.injEq] at hφ
    obtain ⟨hindex, hφ⟩ := hφ
    obtain ⟨hbelow, hafter⟩ := List.append_inj hφ (by simp only [List.length_map, hl])
    obtain ⟨hrefs, rfl⟩ := ihb hb' hbelow
    obtain ⟨rfl, rfl⟩ := iha ha' hafter
    -- the nodes tell the contents of the two records, and how many references stand in each slot
    obtain ⟨index, nodeType, scalars, slotRefs, span⟩ := record
    obtain ⟨index', nodeType', scalars', slotRefs', span'⟩ := record'
    simp only [Record.node, Node.mk.injEq] at hnode
    obtain ⟨rfl, rfl, hdeal, rfl⟩ := hnode
    have hsizes := congrArg Fields.sizes hdeal
    rw [Record.sizes_deal hb.length_eq, Record.sizes_deal hb'.length_eq] at hsizes
    obtain rfl : index' = φ index := hindex
    obtain rfl : slotRefs' = _ := Fields.eq_map_of_sizes φ hsizes hrefs
    refine ⟨rfl, ?_⟩
    rw [List.map_cons, List.map_append]
    rfl

end Unfolds

/-- Numbers the indices of records in the order of the records, from `base` on. -/
def numbering (records : List Record) (base : Nat) (i : Nat) : Nat :=
  base + (records.map (·.index)).idxOf i

theorem map_numbering {records : List Record} (hd : (records.map (·.index)).Nodup) (base : Nat) :
    (records.map (·.index)).map (numbering records base) = List.range' base records.length := by
  refine List.ext_getElem (by simp) fun position hp hp' => ?_
  rw [List.getElem_map, numbering, hd.idxOf_getElem, List.getElem_range', Nat.one_mul]

/-- The indices of the records are numbered one for one. -/
theorem bijOn_numbering {records : List Record} (hd : (records.map (·.index)).Nodup) (base : Nat) :
    Set.BijOn (numbering records base) {i | i ∈ records.map (·.index)}
      (Set.Ico base (base + records.length)) := by
  have hm := map_numbering hd base
  have himage : ∀ n, (∃ i ∈ records.map (·.index), numbering records base i = n) ↔
      base ≤ n ∧ n < base + records.length := fun n => by
    rw [← List.mem_map, hm, List.mem_range'_1]
  refine ⟨fun i hi => (himage _).mp ⟨i, hi, rfl⟩, ?_, fun n hn => (himage n).mpr hn⟩
  exact List.inj_on_of_nodup_map (hm ▸ List.nodup_range')

/-- Renumbering keeps a sequence just if its indices run from `base` on in the order
of the records. -/
theorem map_renumber_eq_self {sequence : Sequence} (hd : (sequence.map (·.index)).Nodup)
    (hr : ∀ i ∈ sequence.references, i ∈ sequence.map (·.index)) {base : Nat}
    (hi : sequence.map (·.index) = List.range' base sequence.length) :
    sequence.map (Record.renumber (numbering sequence base)) = sequence := by
  have hid : ∀ i ∈ sequence.map (·.index), numbering sequence base i = i := by
    have hm := map_numbering hd base
    rw [← hi] at hm
    exact List.map_inj_left.mp (hm.trans (List.map_id _).symm)
  refine (List.map_congr_left fun record hm => ?_).trans (List.map_id _)
  exact Record.renumber_eq_self (hid _ (List.mem_map_of_mem hm)) fun i hc =>
    hid i (hr i (List.mem_flatMap.mpr ⟨record, hm, hc⟩))

/-- Encoding the tree of a sequence gives the records in pre-order, with their
indices and references numbered one for one from `base` on. It gives the sequence
itself just if the records stand in the order of their indices, which run from
`base` on and ascend in pre-order; that is, if the sequence is the encoding of some
tree. -/
theorem encode_decoded {sequence : Sequence} {tree : Node} (h : sequence.decode = .ok tree)
    (ht : ∀ record ∈ sequence, record.nodeType ≠ "") (base : Nat) :
    ∃ records : Sequence, records.Perm sequence ∧ Unfolds sequence.roots [tree] records ∧
      List.Forall₂ sequence.Builds records tree.preorder ∧
      Set.BijOn (numbering records base) {i | i ∈ sequence.map (·.index)}
        (Set.Ico base (base + sequence.length)) ∧
      tree.encode base = .ok (records.map (Record.renumber (numbering records base))) ∧
      (tree.encode base = .ok sequence ↔
        sequence.map (·.index) = List.range' base sequence.length ∧
          (records.map (·.index)).Pairwise (· < ·)) ∧
      (tree.encode base = .ok sequence ↔ ∃ other : Node, other.encode base = .ok sequence) := by
  obtain ⟨hw, records, hu, hp⟩ := forest_eq_ok_iff.mp (decode_eq_ok_iff.mp h)
  have hd : (records.map (·.index)).Nodup := (hp.map _).nodup_iff.mpr hw.distinct
  have hbuilds : List.Forall₂ sequence.Builds records tree.preorder := by
    have hb := hu.builds_preorder hp.subset
    rwa [List.flatMap_cons, List.flatMap_nil, List.append_nil] at hb
  have htypes : ∀ node ∈ tree.preorder, node.nodeType ≠ "" := fun node hn => by
    obtain ⟨record, hr, children, below, -, -, rfl⟩ := exists_of_forall₂ hbuilds node hn
    exact ht record (hp.subset hr)
  obtain ⟨encoded, he, hu', hi⟩ := Node.encode_eq_ok htypes base
  have hc : tree.count = records.length := by
    have := hu.countNodes_eq
    rwa [Node.countNodes, Node.countNodes, Nat.add_zero] at this
  obtain ⟨-, rfl⟩ := hu.eq_map_renumber hu' (by rw [hi, hc, map_numbering hd])
  have hbij := bijOn_numbering hd base
  have hset : {i | i ∈ records.map (·.index)} = {i | i ∈ sequence.map (·.index)} :=
    Set.ext fun i => (hp.map _).mem_iff
  rw [hset, hp.length_eq] at hbij
  have hleast : ∀ {count : Nat}, sequence.map (·.index) = List.range' base count →
      ∀ i ∈ sequence.map (·.index), base ≤ i := fun hr i hm => by
    rw [hr, List.mem_range'_1] at hm
    exact hm.1
  refine ⟨records, hp, hu, hbuilds, hbij, he, ⟨fun hs => ?_, ?_⟩, fun hs => ⟨tree, hs⟩, ?_⟩
  · -- the sequence and its records in pre-order unfold from the same root
    have hseq := Except.ok.inj (he.symm.trans hs)
    rw [hseq] at hu' hi
    obtain ⟨-, hroots⟩ := wellLinked_of_unfolds_root hu' (.refl _) hw.distinct (hleast hi)
    rw [hroots] at hu
    obtain ⟨-, rfl⟩ := hu'.unique hw.distinct (List.Subset.refl _) hu hp.subset
    rw [hi, hc]
    exact ⟨rfl, List.pairwise_lt_range'⟩
  · -- both are in the order of their indices
    rintro ⟨hs, ha⟩
    have hse : (sequence.map (·.index)).Pairwise (· < ·) := hs ▸ List.pairwise_lt_range'
    obtain rfl : records = sequence := List.Perm.eq_of_pairwise
      (fun a b ha hb hab hba => List.inj_on_of_nodup_map hw.distinct (hp.subset ha) hb
        (Nat.le_antisymm hab hba))
      ((List.pairwise_map.mp ha).imp Nat.le_of_lt) ((List.pairwise_map.mp hse).imp Nat.le_of_lt) hp
    rw [he, map_renumber_eq_self hw.distinct hw.resolved hs]
  · rintro ⟨other, ho⟩
    obtain ⟨huo, hio⟩ := Node.unfolds_of_encode ho
    have hdo := decode_of_unfolds huo hw.distinct (hleast hio)
    rwa [Except.ok.inj (h.symm.trans hdo)]

/-- Three records out of order: the first child has a greater index than the
second. -/
theorem encode_decoded_block :
    Sequence.decode [⟨7, "Return", [], [], none⟩, ⟨3, "Block", [], [("body", [9, 7])], none⟩,
      ⟨9, "If", [], [("cond", [])], none⟩] = .ok ((Node.ofType "Block").withSlot "body"
        [(Node.ofType "If").withSlot "cond" [], Node.ofType "Return"]) ∧
    (∀ record ∈ ([⟨7, "Return", [], [], none⟩, ⟨3, "Block", [], [("body", [9, 7])], none⟩,
      ⟨9, "If", [], [("cond", [])], none⟩] : Sequence), record.nodeType ≠ "") ∧
    ∃ records : Sequence, records.Perm [⟨7, "Return", [], [], none⟩,
        ⟨3, "Block", [], [("body", [9, 7])], none⟩, ⟨9, "If", [], [("cond", [])], none⟩] ∧
      Set.BijOn (numbering records 5) {i | i ∈ [7, 3, 9]} (Set.Ico 5 8) ∧
      ((Node.ofType "Block").withSlot "body"
        [(Node.ofType "If").withSlot "cond" [], Node.ofType "Return"]).encode 5 =
          .ok (records.map (Record.renumber (numbering records 5))) := by
  have h : Sequence.decode [⟨7, "Return", [], [], none⟩, ⟨3, "Block", [], [("body", [9, 7])], none⟩,
      ⟨9, "If", [], [("cond", [])], none⟩] = .ok ((Node.ofType "Block").withSlot "body"
        [(Node.ofType "If").withSlot "cond" [], Node.ofType "Return"]) :=
    decode_of_unfolds_perm (i := 3)
      (.single ⟨3, "Block", [], [("body", [9, 7])], none⟩
        (.cons ⟨9, "If", [], [("cond", [])], none⟩ .nil (.cons ⟨7, "Return", [], [], none⟩ .nil .nil)))
      (by decide) (by decide) (by decide)
  obtain ⟨records, hp, -, -, hb, he, -⟩ := encode_decoded h (by decide) 5
  exact ⟨h, by decide, records, hp, hb, he⟩

end Sequence

end TreeSeq
