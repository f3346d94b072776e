import TreeSeq.Proofs.Features.SinglePass
import Mathlib.Data.Finset.Card
import Mathlib.Data.Finset.SDiff

/-!
# Columns over any number of calls

Columns grow by calls that observe records and by calls that make vectors in a single pass. A
call adds the features of its records (`perform_eq`), and so do any number of calls, whatever
their kinds (`after_eq`). What was there before stays in front, so a snapshot that is taken
between two calls agrees with every later one on its own columns (`consistent_after`).
-/

namespace TreeSeq.Columns

/-- A call that grows columns. -/
inductive Call where
  | observe (records : Sequence)
  | singlePass (records : Sequence)

/-- The records that a call is given. -/
def Call.records : Call → Sequence
  | .observe records => records
  | .singlePass records => records

/-- The columns after a call. -/
def perform (columns : Columns) : Call → Columns
  | .observe records => columns.observe records
  | .singlePass records => (columns.singlePass records).2

/-- The columns after some calls, one after the other. -/
def after (columns : Columns) (calls : List Call) : Columns :=
  calls.foldl perform columns

/-- Calls of both kinds add the features of their records. -/
theorem perform_eq (columns : Columns) (call : Call) :
    columns.perform call = columns.observe call.records := by
  cases call with
  | observe records => rfl
  | singlePass records => exact columns.columns_singlePass records

theorem after_append (columns : Columns) (before later : List Call) :
    columns.after (before ++ later) = (columns.after before).after later :=
  List.foldl_append

theorem after_eq (columns : Columns) (calls : List Call) :
    columns.after calls = columns.addAll (seen (calls.map Call.records)) := by
  rw [← observeAll_eq, List.foldl_map, after]
  exact List.foldl_ext _ _ _ fun columns call _ => columns.perform_eq call

/-- Later columns stand behind the earlier ones. -/
theorem prefix_after (columns : Columns) (before later : List Call) :
    (columns.after before).features <+: (columns.after (before ++ later)).features := by
  rw [after_append, after_eq _ later]
  exact prefix_addAll _ _

/-- As many columns are added as there are new features. -/
theorem added_eq_card (columns : Columns) (sequence : Sequence) : columns.added sequence =
    ((sequence.flatMap Record.features).toFinset \ columns.features.toFinset).card := by
  have hfeatures := features_addAll columns (sequence.flatMap Record.features)
  have hdistinct := (columns.addAll (sequence.flatMap Record.features)).distinct
  rw [hfeatures] at hdistinct
  have hnew :
      ((sequence.flatMap Record.features).filter (· ∉ columns.features)).eraseDups.toFinset =
        (sequence.flatMap Record.features).toFinset \ columns.features.toFinset := by
    ext feature
    rw [List.mem_toFinset, List.mem_eraseDups, List.mem_filter, decide_eq_true_eq,
      Finset.mem_sdiff, List.mem_toFinset, List.mem_toFinset]
  rw [added, width, width, observe_eq, hfeatures, List.length_append, Nat.add_sub_cancel_left,
    ← hnew, List.toFinset_card_of_nodup (List.nodup_append.mp hdistinct).2.1]

/-- After any calls, columns and features name each other, a feature has the column that it
first got, the new features stand behind the old ones in the order in which they were first
seen, and observing records adds as many columns as they have features that are new. A vector
over the columns at any time has their width and tells how often its record has each feature,
which is never more than twice; it is the beginning of the vector over the columns at any later
time. -/
theorem consistent_after (columns : Columns) (before later : List Call) :
    (∀ feature column, (columns.after before).columnOf? feature = some column ↔
      (columns.after before).featureAt? column = some feature) ∧
    (∀ feature column, (columns.after before).columnOf? feature = some column →
      (columns.after (before ++ later)).columnOf? feature = some column) ∧
    (columns.after before).features = columns.features ++
      ((seen (before.map Call.records)).filter (· ∉ columns.features)).eraseDups ∧
    (∀ sequence, (columns.after before).added sequence =
      ((sequence.flatMap Record.features).toFinset \
        (columns.after before).features.toFinset).card) ∧
    ∀ record,
      ((columns.after before).vector record).length = (columns.after before).width ∧
      (∀ column, ((columns.after before).vector record)[column]? =
        ((columns.after before).featureAt? column).map (record.features.count ·)) ∧
      (Fields.Distinct record.scalars → ∀ n ∈ (columns.after before).vector record, n ≤ 2) ∧
      ((columns.after (before ++ later)).vector record).take (columns.after before).width =
        (columns.after before).vector record := by
  have hprefix := columns.prefix_after before later
  refine ⟨fun _ _ => columnOf?_eq_some_iff, fun _ _ => columnOf?_of_prefix hprefix, ?_,
    added_eq_card _, fun record => ⟨length_vector _ record, getElem?_vector _ record,
      fun hd n hn => ?_, take_vector hprefix record⟩⟩
  · rw [after_eq, features_addAll]
  · rw [vector_eq_map] at hn
    obtain ⟨feature, -, rfl⟩ := List.mem_map.mp hn
    exact Record.count_features_le hd feature

/-- Two equal elements of a list, and an attribute that repeats the type. -/
def doubled : Record :=
  ⟨0, "ID", [("names", .many [.text "x", .text "x"]), ("_nodetype", .one (.text "ID"))], [], none⟩

/-- A plain attribute under the name of the list. -/
def plain : Record :=
  ⟨1, "Return", [("names", .one (.text "x"))], [], none⟩

/-- The second element keeps its column while the other record brings two features, and the
vector over the later columns starts as the one over the earlier ones. -/
theorem consistent_after_doubled :
    (empty.after [.observe [doubled]]).columnOf? ⟨"names", some 1, .text "x"⟩ = some 2 ∧
      Fields.Distinct doubled.scalars ∧
      (empty.after ([.observe [doubled]] ++ [.singlePass [plain, doubled]])).columnOf?
        ⟨"names", some 1, .text "x"⟩ = some 2 ∧
      (empty.after [.observe [doubled]]).added [plain, doubled] = 2 ∧
      ((empty.after ([.observe [doubled]] ++ [.singlePass [plain, doubled]])).vector doubled).take
        (empty.after [.observe [doubled]]).width = [2, 1, 1] ∧
      ∀ n ∈ (empty.after [.observe [doubled]]).vector doubled, n ≤ 2 := by
  have hcolumn : (empty.after [.observe [doubled]]).columnOf? ⟨"names", some 1, .text "x"⟩ =
      some 2 := by decide
  have hdistinct : Fields.Distinct doubled.scalars := by decide
  obtain ⟨-, hkept, -, hadded, hvector⟩ :=
    consistent_after empty [.observe [doubled]] [.singlePass [plain, doubled]]
  obtain ⟨-, -, hle, htake⟩ := hvector doubled
  refine ⟨hcolumn, hdistinct, hkept _ _ hcolumn, ?_, ?_, hle hdistinct⟩
  · rw [hadded]
    decide
  · rw [htake]
    decide

end TreeSeq.Columns
