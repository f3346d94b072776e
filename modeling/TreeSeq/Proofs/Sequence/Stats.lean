import TreeSeq.Proofs.Sequence.Depth
import TreeSeq.Proofs.Sequence.Forest
import TreeSeq.Sequence.Stats
import Mathlib.Order.Bounds.Basic

/-!
# What the measures of a sequence tell of its trees

Records are visited in ascending order of index, so when one is visited, exactly the
references that rise to it have been seen (`Tallied.depth_known`). It is counted as a root
if there is none, and at the depth at which it lies as far as references rise
(`Tallied.add`, `tallied_measure`).

So each reference that leads down makes one root too many, and the greatest depth may come
out too small; without such references both are those of the trees (`measured_of_forest`).
-/

namespace TreeSeq.Stats

open Sequence (AtDepth Linked)

variable {sequence : Sequence} {visited ordered : List Record} {record : Record} {tally : Tally}
  {trees : List Node}

/-! ## One record -/

/-- A child that has a depth already keeps it. -/
theorem getElem?_foldl_insertIfNew (depths : Std.HashMap Nat Nat) (children : List Nat)
    (depth i : Nat) :
    (children.foldl (fun depths child => depths.insertIfNew child depth) depths)[i]? =
      depths[i]?.or (if i ∈ children then some depth else none) := by
  induction children generalizing depths with
  | nil => simp
  | cons child rest ih =>
    rw [List.foldl_cons, ih, Std.HashMap.getElem?_insertIfNew]
    by_cases hi : child = i
    · subst hi
      by_cases hm : child ∈ depths <;> simp [hm]
    · simp [hi, Ne.symm hi]

/-- What the counts are when these records have been visited. -/
structure Tallied (sequence : Sequence) (visited : List Record) (tally : Tally) : Prop where
  /-- The children of visited records are one deeper than these. -/
  depths : ∀ i n, tally.depths[i]? = some n ↔ ∃ parent ∈ visited, ∃ depth,
    i ∈ parent.children ∧ AtDepth sequence.Rises depth parent.index ∧ n = depth + 1
  roots : tally.roots = visited.countP (·.index ∉ sequence.ascents)
  maxDepth : ∀ n, tally.maxDepth ≤ n ↔
    ∀ record ∈ visited, ∀ depth, AtDepth sequence.Rises depth record.index → depth ≤ n

theorem tallied_empty (sequence : Sequence) : Tallied sequence [] .empty :=
  ⟨by simp [Tally.empty], rfl, by simp [Tally.empty]⟩

namespace Tallied

/-- When a record is visited after all with a smaller index, the depth at which it lies is
known, unless no reference rises to it. -/
theorem depth_known (h : Tallied sequence visited tally)
    (hv : ∀ other, other ∈ visited ↔ other ∈ sequence ∧ other.index < record.index) :
    AtDepth sequence.Rises (tally.depths[record.index]?.getD 0) record.index ∧
      (tally.depths[record.index]? = none ↔ record.index ∉ sequence.ascents) := by
  have hseen (n : Nat) : tally.depths[record.index]? = some n ↔ ∃ parent,
      sequence.Rises parent record.index ∧ ∃ depth, AtDepth sequence.Rises depth parent ∧
        n = depth + 1 := by
    rw [h.depths]
    constructor
    · rintro ⟨parent, hp, depth, hi, hd, rfl⟩
      obtain ⟨hp, hlt⟩ := (hv parent).mp hp
      exact ⟨parent.index, ⟨⟨parent, hp, rfl, hi⟩, hlt⟩, depth, hd, rfl⟩
    · rintro ⟨_, ⟨⟨parent, hp, rfl, hi⟩, hlt⟩, depth, hd, rfl⟩
      exact ⟨parent, (hv parent).mpr ⟨hp, hlt⟩, depth, hi, hd, rfl⟩
  rw [Sequence.mem_ascents]
  cases hk : tally.depths[record.index]? with
  | none =>
    have hn : ∀ parent, ¬ sequence.Rises parent record.index := by
      intro parent hr
      obtain ⟨depth, hd⟩ := AtDepth.exists_rises sequence parent
      rw [(hseen (depth + 1)).mpr ⟨parent, hr, depth, hd, rfl⟩] at hk
      cases hk
    exact ⟨.top hn, iff_of_true rfl fun ⟨parent, hr⟩ => hn parent hr⟩
  | some n =>
    obtain ⟨parent, hr, depth, hd, rfl⟩ := (hseen n).mp hk
    exact ⟨hd.under hr, iff_of_false (by simp) fun hn => hn ⟨parent, hr⟩⟩

/-- Visiting the next record keeps what the counts are. -/
theorem add (h : Tallied sequence visited tally) (hl : sequence.Linked) (hr : record ∈ sequence)
    (hv : ∀ other, other ∈ visited ↔ other ∈ sequence ∧ other.index < record.index) :
    Tallied sequence (visited ++ [record]) (tally.add record) := by
  obtain ⟨hdepth, hroot⟩ := h.depth_known hv
  have hunique {n i : Nat} (hn : AtDepth sequence.Rises n i) {m : Nat}
      (hm : AtDepth sequence.Rises m i) : n = m :=
    hn.unique hm fun hp hq => hl.refers_unique hp.1 hq.1
  constructor
  case depths =>
    intro i n
    simp only [Tally.add, getElem?_foldl_insertIfNew, List.mem_append, List.mem_singleton]
    rw [Option.or_eq_some_iff, h.depths]
    constructor
    · rintro (⟨parent, hp, hdeep⟩ | ⟨-, hn⟩)
      · exact ⟨parent, .inl hp, hdeep⟩
      · obtain ⟨hi, hn⟩ := Option.ite_none_right_eq_some.mp hn
        exact ⟨record, .inr rfl, _, hi, hdepth, (Option.some.inj hn).symm⟩
    · rintro ⟨parent, hp | rfl, depth, hi, hd, rfl⟩
      · exact .inl ⟨parent, hp, depth, hi, hd, rfl⟩
      · -- no record that was visited references the child as well
        have hnone : tally.depths[i]? = none := by
          by_contra hsome
          obtain ⟨n, hn⟩ := Option.ne_none_iff_exists'.mp hsome
          obtain ⟨other, ho, -, hio, -⟩ := (h.depths i n).mp hn
          obtain ⟨ho, hlt⟩ := (hv other).mp ho
          exact absurd (hl.refers_unique ⟨other, ho, rfl, hio⟩ ⟨parent, hr, rfl, hi⟩) hlt.ne
        refine .inr ⟨hnone, ?_⟩
        rw [if_pos hi, hunique hdepth hd]
  case roots =>
    rw [List.countP_append, List.countP_singleton, ← h.roots, Tally.add]
    by_cases hk : record.index ∈ sequence.ascents
    · have hsome : tally.depths[record.index]?.isNone = false := by
        rw [Option.isNone_eq_false_iff, Option.isSome_iff_ne_none]
        exact fun hn => hroot.mp hn hk
      simp [hsome, hk]
    · simp [hroot.mpr hk, hk]
  case maxDepth =>
    intro n
    rw [Tally.add, Nat.max_le, h.maxDepth, List.forall_mem_append, List.forall_mem_singleton]
    refine and_congr_right fun _ => ⟨fun hn depth hd => ?_, fun hn => hn _ hdepth⟩
    exact hunique hdepth hd ▸ hn

/-- Visiting the records in ascending order keeps what the counts are. -/
theorem foldl (hl : sequence.Linked) (h : Tallied sequence visited tally)
    (ha : (visited ++ ordered).Pairwise (·.index < ·.index))
    (hm : ∀ record, record ∈ visited ++ ordered ↔ record ∈ sequence) :
    Tallied sequence (visited ++ ordered) (ordered.foldl Tally.add tally) := by
  induction ordered generalizing visited tally with
  | nil => rwa [List.append_nil]
  | cons record rest ih =>
    have hr : record ∈ sequence := (hm record).mp (by simp)
    have hv (other : Record) :
        other ∈ visited ↔ other ∈ sequence ∧ other.index < record.index := by
      obtain ⟨-, hrest, hlt⟩ := List.pairwise_append.mp ha
      rw [← hm, List.mem_append, List.mem_cons]
      constructor
      · exact fun ho => ⟨.inl ho, hlt other ho record List.mem_cons_self⟩
      · rintro ⟨ho | rfl | ho, hless⟩
        · exact ho
        · exact absurd hless (lt_irrefl _)
        · exact absurd hless (Nat.not_lt_of_gt ((List.pairwise_cons.mp hrest).1 other ho))
    rw [List.append_cons] at ha hm ⊢
    exact ih (h.add hl hr hv) ha hm

end Tallied

/-! ## The whole sequence -/

/-- A linked sequence is visited as a whole. -/
theorem exists_tallied (hl : sequence.Linked) : ∃ ordered tally, ordered.Perm sequence ∧
    Tallied sequence ordered tally ∧ (measure sequence).roots = tally.roots ∧
    (measure sequence).maxDepth = tally.maxDepth := by
  have hp := List.mergeSort_perm sequence (·.index ≤ ·.index)
  have hle : (sequence.mergeSort (·.index ≤ ·.index)).Pairwise (·.index ≤ ·.index) :=
    (List.pairwise_mergeSort (by simp; omega) (by simp; omega) _).imp (by simp)
  have hne : (sequence.mergeSort (·.index ≤ ·.index)).Pairwise (·.index ≠ ·.index) :=
    List.pairwise_map.mp ((hp.map _).nodup_iff.mpr hl.distinct)
  have hlt : (sequence.mergeSort (·.index ≤ ·.index)).Pairwise (·.index < ·.index) :=
    (hle.and hne).imp fun ⟨h, hn⟩ => Nat.lt_of_le_of_ne h hn
  exact ⟨_, _, hp, (tallied_empty sequence).foldl hl hlt fun _ => hp.mem_iff, rfl, rfl⟩

/-- A record to which no reference rises is a root, or a reference leads down to it. -/
theorem perm_roots_descents (hl : sequence.Linked) :
    ((sequence.map (·.index)).filter (· ∉ sequence.ascents)).Perm
      (sequence.roots ++ sequence.descents) := by
  have hsub : sequence.descents.Sublist sequence.references :=
    List.Sublist.flatMap_right _ fun record _ => List.filter_sublist
  have hdescents : ∀ i ∈ sequence.descents, i ∈ sequence.references := fun i hi => hsub.subset hi
  refine (List.perm_ext_iff_of_nodup (hl.distinct.filter _) (List.nodup_append.mpr
    ⟨Sequence.nodup_roots hl.distinct, hl.unshared.sublist hsub, ?_⟩)).mpr fun i => ?_
  · rintro i hi j hj rfl
    exact (Sequence.mem_roots.mp hi).2 (hdescents i hj)
  rw [List.mem_filter, List.mem_append, Sequence.mem_roots, decide_eq_true_eq]
  constructor
  · rintro ⟨hi, hn⟩
    by_cases hr : i ∈ sequence.references
    · obtain ⟨parent, hp⟩ := Sequence.mem_references.mp hr
      refine .inr (Sequence.mem_descents.mpr ⟨parent, hp, Nat.not_lt.mp fun hlt => hn ?_⟩)
      exact Sequence.mem_ascents.mpr ⟨parent, hp, hlt⟩
    · exact .inl ⟨hi, hr⟩
  · rintro (⟨hi, hr⟩ | hi)
    · refine ⟨hi, fun ha => hr ?_⟩
      obtain ⟨parent, hp, -⟩ := Sequence.mem_ascents.mp ha
      exact Sequence.mem_references.mpr ⟨parent, hp⟩
    · refine ⟨hl.resolved i (hdescents i hi), fun ha => ?_⟩
      -- there is only one reference to `i`, and it leads down
      obtain ⟨parent, hp, hle⟩ := Sequence.mem_descents.mp hi
      obtain ⟨other, ho, hlt⟩ := Sequence.mem_ascents.mp ha
      rw [hl.refers_unique ho hp] at hlt
      exact Nat.not_lt.mpr hle hlt

theorem roots_measure (hl : sequence.Linked) :
    (measure sequence).roots = sequence.roots.length + sequence.descents.length := by
  obtain ⟨ordered, tally, hp, h, hroots, -⟩ := exists_tallied hl
  rw [hroots, h.roots, hp.countP_eq, ← List.length_append, ← (perm_roots_descents hl).length_eq,
    ← List.countP_eq_length_filter, List.countP_map]
  rfl

theorem maxDepth_measure_le_iff (hl : sequence.Linked) {n : Nat} :
    (measure sequence).maxDepth ≤ n ↔
      ∀ record ∈ sequence, ∀ depth, AtDepth sequence.Rises depth record.index → depth ≤ n := by
  obtain ⟨ordered, tally, hp, h, -, hdepth⟩ := exists_tallied hl
  rw [hdepth, h.maxDepth]
  exact forall_congr' fun record => by rw [hp.mem_iff]

/-! ## The trees -/

theorem roots_measure_of_forest (h : sequence.forest = .ok trees) :
    (measure sequence).roots = trees.length + sequence.descents.length := by
  obtain ⟨hw, records, hu, -⟩ := Sequence.forest_eq_ok_iff.mp h
  rw [roots_measure hw.linked, hu.length_eq]

/-- Of a sequence that is decoded the measures count a root for each tree and one more for
each reference that leads down, and the greatest depth is counted along references that
rise. So they are those of the trees just if no reference leads down. -/
theorem measured_of_forest (h : sequence.forest = .ok trees) :
    (measure sequence).roots = trees.length + sequence.descents.length ∧
    (∀ tree, sequence.decode = .ok tree →
      (measure sequence).roots = 1 + sequence.descents.length) ∧
    IsLUB {depth | ∃ record ∈ sequence, AtDepth sequence.Rises depth record.index}
      (measure sequence).maxDepth ∧
    (measure sequence).maxDepth ≤ Node.deepest trees ∧
    ((measure sequence).roots = trees.length ∧
      (measure sequence).maxDepth = Node.deepest trees ↔ sequence.descents = []) := by
  obtain ⟨hw, records, hu, hp⟩ := Sequence.forest_eq_ok_iff.mp h
  have hl := hw.linked
  have hroots := roots_measure_of_forest h
  have hdepth {n : Nat} := maxDepth_measure_le_iff hl (n := n)
  have hdeepest {n : Nat} := hl.deepest_le_iff hu hp (n := n)
  refine ⟨hroots, fun tree ht => ?_, ?_, ?_, ?_⟩
  · cases h.symm.trans (Sequence.decode_eq_ok_iff.mp ht)
    exact hroots
  · rw [isLUB_iff_le_iff]
    intro n
    rw [hdepth, mem_upperBounds]
    constructor
    · rintro hn depth ⟨record, hr, hd⟩
      exact hn record hr depth hd
    · exact fun hn record hr depth hd => hn depth ⟨record, hr, hd⟩
  · refine hdepth.mpr fun record hr depth hd => ?_
    obtain ⟨n, hn⟩ := hl.exists_atDepth (List.mem_map_of_mem hr)
    exact (hd.le_of_rises hl hn).trans (hdeepest.mp le_rfl record hr n hn)
  · constructor
    · rintro ⟨hr, -⟩
      exact List.length_eq_zero_iff.mp (by omega)
    · intro hn
      have hrises : sequence.Rises = sequence.Refers := by
        funext parent i
        exact propext (Sequence.rises_iff_refers hn)
      refine ⟨by rw [hroots, hn]; rfl, eq_of_forall_ge_iff fun n => ?_⟩
      rw [hdepth, hdeepest, hrises]

/-- A child whose own child has a smaller index. -/
def grandchildFirst : Sequence :=
  [⟨0, "Return", [], [("expr", [2])], none⟩, ⟨1, "ID", [], [], none⟩,
    ⟨2, "UnaryOp", [], [("expr", [1])], none⟩]

/-- Three nodes, one below the other. -/
def grandchildTree : Node :=
  ⟨"Return", [], [("expr", [⟨"UnaryOp", [], [("expr", [⟨"ID", [], [], none⟩])], none⟩])], none⟩

theorem forest_grandchildFirst : grandchildFirst.forest = .ok [grandchildTree] := by
  have hleaf := Sequence.Unfolds.single ⟨1, "ID", [], [], none⟩ .nil
  have hchild := Sequence.Unfolds.single ⟨2, "UnaryOp", [], [("expr", [1])], none⟩ hleaf
  have hroot := Sequence.Unfolds.single ⟨0, "Return", [], [("expr", [2])], none⟩ hchild
  refine Sequence.decode_eq_ok_iff.mp (Sequence.decode_of_unfolds_perm hroot ?_ ?_ ?_)
  · decide
  · decide
  · decide

theorem measured_of_forest_grandchildFirst :
    grandchildFirst.forest = .ok [grandchildTree] ∧
      (measure grandchildFirst).roots = 1 + grandchildFirst.descents.length ∧
      (measure grandchildFirst).maxDepth ≤ Node.deepest [grandchildTree] ∧
      ((measure grandchildFirst).roots = 1 ∧
        (measure grandchildFirst).maxDepth = Node.deepest [grandchildTree] ↔
          grandchildFirst.descents = []) := by
  obtain ⟨hroots, -, -, hle, hsame⟩ := measured_of_forest forest_grandchildFirst
  exact ⟨forest_grandchildFirst, hroots, hle, hsame⟩

theorem rises_grandchildFirst {i j : Nat} (h : grandchildFirst.Rises i j) : i = 0 ∧ j = 2 := by
  obtain ⟨⟨record, hr, rfl, hj⟩, hlt⟩ := h
  simp only [grandchildFirst, List.mem_cons, List.not_mem_nil, or_false] at hr
  rcases hr with rfl | rfl | rfl
  · exact ⟨rfl, List.mem_singleton.mp hj⟩
  · cases hj
  · rw [List.mem_singleton.mp hj] at hlt
    exact absurd hlt (by decide)

/-- The one tree has a node at depth 2, and the measures tell of two roots and depth 1. -/
theorem not_measured_grandchildFirst :
    grandchildFirst.decode = .ok grandchildTree ∧ grandchildFirst.forest = .ok [grandchildTree] ∧
      Node.deepest [grandchildTree] = 2 ∧
      (measure grandchildFirst).roots = 2 ∧ (measure grandchildFirst).maxDepth = 1 := by
  have hl := (Sequence.forest_eq_ok_iff.mp forest_grandchildFirst).1.linked
  have hdepth {n : Nat} := maxDepth_measure_le_iff hl (n := n)
  have htop : AtDepth grandchildFirst.Rises 0 0 := .top fun parent hr =>
    absurd (rises_grandchildFirst hr).2 (by decide)
  refine ⟨Sequence.decode_eq_ok_iff.mpr forest_grandchildFirst, forest_grandchildFirst,
    by decide, roots_measure_of_forest forest_grandchildFirst, Nat.le_antisymm ?_ ?_⟩
  · refine hdepth.mpr fun record _ depth hd => ?_
    cases hd with
    | top => exact Nat.zero_le 1
    | under hd hr =>
      obtain ⟨rfl, -⟩ := rises_grandchildFirst hr
      rw [hd.unique htop fun hp hq => hl.refers_unique hp.1 hq.1]
  · exact hdepth.mp le_rfl ⟨2, "UnaryOp", [], [("expr", [1])], none⟩ (by decide) 1
      (htop.under ⟨⟨_, List.mem_cons_self, rfl, by decide⟩, by decide⟩)

end TreeSeq.Stats
