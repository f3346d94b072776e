import TreeSeq.Features.Basic
import TreeSeq.Proofs.Hasher.Streams
import Mathlib.Algebra.GroupWithZero.Nat
import Mathlib.Data.List.Basic
import Mathlib.Data.List.Induction

/-!
# Columns that grow and vectors over them

Columns that grow stay where they are, and the new features get columns behind them in
the order in which they are first seen (`features_addAll`, `firstSeen_ofFeatures`). A
vector over columns that have all features of its record counts each of them once
(`length_vector`, `sum_vector`).
-/

namespace TreeSeq.Columns

variable {columns : Columns} {record : Record} {vector found : List Nat} {column : Nat}

/-! ## Growing -/

/-- New features get columns at the end, in first-seen order. -/
theorem features_addAll (columns : Columns) (features : List Feature) :
    (columns.addAll features).features =
      columns.features ++ (features.filter (· ∉ columns.features)).eraseDups := by
  refine Fields.foldl_eq_append Columns.features (fun columns feature => ?_) features columns
  rw [add]
  split <;> rfl

theorem mem_features_addAll {features : List Feature} {feature : Feature} :
    feature ∈ (columns.addAll features).features ↔
      feature ∈ columns.features ∨ feature ∈ features := by
  rw [features_addAll, List.mem_append, List.mem_eraseDups, List.mem_filter, decide_eq_true_eq]
  tauto

theorem eraseDups_of_nodup {features : List Feature} (h : features.Nodup) :
    features.eraseDups = features := by
  induction features with
  | nil => rfl
  | cons feature rest ih =>
    obtain ⟨hn, hr⟩ := List.nodup_cons.mp h
    have hf : rest.filter (fun other => !other == feature) = rest := by
      refine List.filter_eq_self.mpr fun other ho => ?_
      simpa using fun he : other = feature => hn (he ▸ ho)
    rw [List.eraseDups_cons, hf, ih hr]

/-- Columns are told by their features. -/
theorem ofFeatures_features (columns : Columns) : ofFeatures columns.features = columns := by
  have hf : (ofFeatures columns.features).features = columns.features := by
    have hall : columns.features.filter (· ∉ empty.features) = columns.features :=
      List.filter_eq_self.mpr fun feature _ => decide_eq_true List.not_mem_nil
    rw [ofFeatures, features_addAll, hall, eraseDups_of_nodup columns.distinct]
    rfl
  generalize ofFeatures columns.features = others at hf
  cases others
  cases columns
  cases hf
  rfl

/-- The columns are those of the features that were seen, in the order of their first
occurrences. -/
structure FirstSeen (features : List Feature) (columns : Columns) : Prop where
  mem : ∀ feature, feature ∈ columns.features ↔ feature ∈ features
  ordered : columns.features.Pairwise fun one other => features.idxOf one < features.idxOf other

theorem firstSeen_empty : FirstSeen [] empty :=
  ⟨fun _ => Iff.rfl, .nil⟩

/-- One more feature is seen: the places of the earlier ones stay, and it comes behind them if
it is new. -/
theorem FirstSeen.add {features : List Feature} (h : FirstSeen features columns)
    (feature : Feature) : FirstSeen (features ++ [feature]) (columns.add feature) := by
  have hplace : ∀ other ∈ columns.features,
      (features ++ [feature]).idxOf other = features.idxOf other := fun other ho =>
    List.idxOf_append_of_mem ((h.mem other).mp ho)
  have hpairs : columns.features.Pairwise fun one other =>
      (features ++ [feature]).idxOf one < (features ++ [feature]).idxOf other := by
    refine h.ordered.imp_of_mem fun {one other} hone hother hlt => ?_
    rw [hplace one hone, hplace other hother]
    exact hlt
  rw [Columns.add]
  split
  case isTrue hm =>
    refine ⟨fun other => ?_, hpairs⟩
    rw [List.mem_append, List.mem_singleton, ← h.mem]
    exact ⟨.inl, fun ho => ho.elim id (· ▸ hm)⟩
  case isFalse hm =>
    refine ⟨fun other => ?_, List.pairwise_append.mpr ⟨hpairs, List.pairwise_singleton _ _, ?_⟩⟩
    · rw [List.mem_append, List.mem_append, h.mem]
    · intro other ho last hl
      obtain rfl := List.mem_singleton.mp hl
      rw [hplace other ho, List.idxOf_append_of_notMem fun hf => hm ((h.mem _).mpr hf)]
      exact Nat.lt_add_right _ (List.idxOf_lt_length_of_mem ((h.mem other).mp ho))

/-- Columns of features that may repeat are in the order of the first occurrences. -/
theorem firstSeen_ofFeatures (features : List Feature) :
    FirstSeen features (ofFeatures features) := by
  induction features using List.reverseRecOn with
  | nil => exact firstSeen_empty
  | append_singleton features feature ih =>
    have hlast : ofFeatures (features ++ [feature]) = (ofFeatures features).add feature := by
      rw [ofFeatures, addAll, List.foldl_append]
      rfl
    rw [hlast]
    exact ih.add feature

theorem addAll_append (columns : Columns) (features others : List Feature) :
    columns.addAll (features ++ others) = (columns.addAll features).addAll others :=
  List.foldl_append

theorem observe_eq (columns : Columns) (sequence : Sequence) :
    columns.observe sequence = columns.addAll (sequence.flatMap Record.features) := by
  induction sequence generalizing columns with
  | nil => rfl
  | cons record rest ih =>
    rw [List.flatMap_cons, addAll_append, ← ih]
    rfl

/-- The features of all records, in order. -/
def seen (sequences : List Sequence) : List Feature :=
  sequences.flatMap fun sequence => sequence.flatMap Record.features

/-- The columns after some sequences are those for all features of their records. -/
theorem observeAll_eq (columns : Columns) (sequences : List Sequence) :
    sequences.foldl observe columns = columns.addAll (seen sequences) := by
  induction sequences generalizing columns with
  | nil => rfl
  | cons sequence rest ih =>
    rw [List.foldl_cons, ih, observe_eq, ← addAll_append]
    rfl

theorem mem_seen {sequences : List Sequence} {sequence : Sequence} {feature : Feature}
    (hs : sequence ∈ sequences) (hr : record ∈ sequence) (hf : feature ∈ record.features) :
    feature ∈ seen sequences :=
  List.mem_flatMap.mpr ⟨sequence, hs, List.mem_flatMap.mpr ⟨record, hr, hf⟩⟩

/-! ## Vectors -/

theorem sum_count (h : column < vector.length) : (count vector column).sum = vector.sum + 1 := by
  rw [count]
  induction vector generalizing column with
  | nil => simp at h
  | cons n rest ih =>
    cases column with
    | zero =>
      simp
      omega
    | succ column =>
      simp [ih (Nat.lt_of_succ_lt_succ h)]
      omega

theorem length_count (vector : List Nat) (column : Nat) :
    (count vector column).length = vector.length :=
  List.length_modify _ _ _

theorem length_foldl_count (vector found : List Nat) :
    (found.foldl count vector).length = vector.length := by
  induction found generalizing vector with
  | nil => rfl
  | cons column rest ih => rw [List.foldl_cons, ih, length_count]

theorem sum_foldl_count (h : ∀ column ∈ found, column < vector.length) :
    (found.foldl count vector).sum = vector.sum + found.length := by
  induction found generalizing vector with
  | nil => rfl
  | cons column rest ih =>
    obtain ⟨hc, hr⟩ := List.forall_mem_cons.mp h
    rw [List.foldl_cons, ih (by simpa only [length_count] using hr), sum_count hc, List.length_cons]
    omega

/-- A vector is as wide as the columns are. -/
theorem length_vector (columns : Columns) (record : Record) :
    (columns.vector record).length = columns.width := by
  rw [Columns.vector, length_foldl_count, List.length_replicate]

theorem columnOf?_lt {feature : Feature} (h : columns.columnOf? feature = some column) :
    column < columns.width :=
  (List.idxOf?_eq_some_iff.mp h).choose

/-- A vector counts all features of its record if each of them has a column. -/
theorem sum_vector (h : ∀ feature ∈ record.features, feature ∈ columns.features) :
    (columns.vector record).sum = record.features.length := by
  have hlength : (record.features.filterMap columns.columnOf?).length = record.features.length :=
    List.filterMap_length_eq_length.mpr fun feature hf => List.isSome_idxOf?.mpr (h feature hf)
  rw [Columns.vector, sum_foldl_count, hlength, List.sum_replicate_nat, Nat.mul_zero, Nat.zero_add]
  intro column hc
  obtain ⟨feature, -, hf⟩ := List.mem_filterMap.mp hc
  rw [List.length_replicate]
  exact columnOf?_lt hf

/-! ## Files of vectors -/

/-- The vectors of a sequence, each on a line of its own. -/
def vectorFile (columns : Columns) (sequence : Sequence) : String :=
  Text.unlines ((columns.vectors sequence).map vectorText)

theorem lines_vectorFile (columns : Columns) (sequence : Sequence) :
    Text.lines (columns.vectorFile sequence) = (columns.vectors sequence).map vectorText := by
  refine Text.lines_unlines fun line hl => ?_
  obtain ⟨vector, -, rfl⟩ := List.mem_map.mp hl
  exact TokenStream.isLine_text vector

theorem vectorText_ne_empty (h : vector ≠ []) : vectorText vector ≠ "" := by
  obtain ⟨n, rest, rfl⟩ := List.exists_cons_of_ne_nil h
  rw [vectorText, List.map_cons]
  exact Text.intercalate_ne_empty (by simp [Nat.toString_eq_repr]) _

/-- Every record has a feature, so no line is empty and the two ways to write lines
agree. -/
theorem joinLines_vectors {sequence : Sequence}
    (h : ∀ record ∈ sequence, ∀ feature ∈ record.features, feature ∈ columns.features) :
    Text.joinLines ((columns.vectors sequence).map vectorText) = columns.vectorFile sequence := by
  refine Text.joinLines_eq_unlines fun line hl => ?_
  obtain ⟨vector, hv, rfl⟩ := List.mem_map.mp hl
  obtain ⟨record, hr, rfl⟩ := List.mem_map.mp hv
  refine vectorText_ne_empty (List.ne_nil_of_length_pos ?_)
  rw [length_vector]
  exact List.length_pos_of_mem (h record hr _ List.mem_cons_self)

end TreeSeq.Columns
