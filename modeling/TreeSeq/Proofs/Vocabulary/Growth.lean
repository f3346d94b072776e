import TreeSeq.Batch.Run
import TreeSeq.Proofs.Disk
import TreeSeq.Proofs.Vocabulary.Inversion
import Mathlib.Logic.Relation

/-!
# Growing a vocabulary

However tokens are added to a vocabulary, one by one or as the words of lines and
files, what is there stays as it is, and each token that is new gets the id after the
greatest one (`Extends`). A gap among the ids is never filled, and two tokens with one
id keep it.

* `nextId_le_iff`, `fits_iff`: what the count of the next id says of the ids in use;
* `extends_insert`, `extends_addFile`, `extends_addFiles`: one step of growth;
* `extends_of_grown`: any number of steps;
* `Extends.gapless_iff`: growth neither makes nor takes away an inverse;
* `invert_grown`: all of this, for vocabularies that have grown in any way.
-/

namespace TreeSeq.Vocabulary

open Relation (ReflTransGen)

variable {vocabulary grown : Vocabulary}

/-- The next id is the least that is greater than all ids. -/
theorem nextId_le_iff {n : Nat} : vocabulary.nextId ≤ n ↔ ∀ id ∈ vocabulary.ids, id < n := by
  have h : ∀ (l : List Nat) (m : Nat), l.foldl max m ≤ n ↔ m ≤ n ∧ ∀ a ∈ l, a ≤ n := by
    intro l
    induction l with
    | nil => simp
    | cons a l ih =>
      intro m
      rw [List.foldl_cons, ih, Nat.max_le, List.forall_mem_cons, and_assoc]
  rw [vocabulary.next, idAfter, h, ids, List.forall_mem_map, List.forall_mem_map]
  exact and_iff_right (Nat.zero_le n)

/-- It depends on the ids alone. -/
theorem nextId_eq_of_ids {a b : Vocabulary} (h : ∀ id, id ∈ a.ids ↔ id ∈ b.ids) :
    a.nextId = b.nextId := by
  have hle (n : Nat) : a.nextId ≤ n ↔ b.nextId ≤ n := by
    rw [nextId_le_iff, nextId_le_iff]
    exact forall_congr' fun id => by rw [h id]
  exact Nat.le_antisymm ((hle _).mpr (Nat.le_refl _)) ((hle _).mp (Nat.le_refl _))

theorem mem_ids_iff {id : Nat} : id ∈ vocabulary.ids ↔ ∃ token, vocabulary.idOf? token = some id := by
  constructor
  · intro h
    obtain ⟨⟨token, _⟩, hm, rfl⟩ := List.mem_map.mp h
    exact ⟨token, Fields.get?_of_mem vocabulary.distinct hm⟩
  · rintro ⟨token, h⟩
    exact List.mem_map_of_mem (Fields.mem_of_get? h)

/-- The count is a number of 32 bits just if all ids leave room for it. -/
theorem fits_iff : vocabulary.Fits ↔ ∀ id ∈ vocabulary.ids, id + 1 < UInt32.size := by
  have hsize : 0 < UInt32.size := by decide
  have hle : vocabulary.Fits ↔ vocabulary.nextId ≤ UInt32.size - 1 := by
    rw [Fits]
    omega
  rw [hle, nextId_le_iff]
  exact forall₂_congr fun id _ => by omega

/-- Vocabularies that give the same tokens the same ids count alike. -/
theorem same_iff {a b : Vocabulary} : a.same b ↔ ∀ token, a.idOf? token = b.idOf? token := by
  rw [same, Bool.and_eq_true, beq_iff_eq, Fields.same_iff a.distinct b.distinct]
  refine and_iff_left_of_imp fun h => nextId_eq_of_ids fun id => ?_
  rw [mem_ids_iff, mem_ids_iff]
  exact exists_congr fun token => by rw [idOf?, idOf?, h token]

/-- `grown` lists the tokens of `vocabulary` with their ids, and after them further
tokens with the ids from the next one on. -/
def Extends (grown vocabulary : Vocabulary) : Prop :=
  ∃ tokens : List String, grown.entries = vocabulary.entries ++ tokens.zipIdx vocabulary.nextId

theorem ids_of_entries {tokens : List String}
    (h : grown.entries = vocabulary.entries ++ tokens.zipIdx vocabulary.nextId) :
    grown.ids = vocabulary.ids ++ List.range' vocabulary.nextId tokens.length := by
  rw [ids, h, List.map_append, ids]
  exact congrArg _ (List.zipIdx_map_snd _ _)

theorem size_of_entries {tokens : List String}
    (h : grown.entries = vocabulary.entries ++ tokens.zipIdx vocabulary.nextId) :
    grown.size = vocabulary.size + tokens.length := by
  rw [size, h, List.length_append, List.length_zipIdx, size]

/-- Each new token moves the next id on by one. -/
theorem nextId_of_entries {tokens : List String}
    (h : grown.entries = vocabulary.entries ++ tokens.zipIdx vocabulary.nextId) :
    grown.nextId = vocabulary.nextId + tokens.length := by
  have hle : ∀ n, grown.nextId ≤ n ↔ vocabulary.nextId + tokens.length ≤ n := fun n => by
    rw [nextId_le_iff, ids_of_entries h, List.forall_mem_append, ← nextId_le_iff]
    simp only [List.mem_range'_1]
    constructor
    · rintro ⟨hv, ht⟩
      by_contra hn
      have := ht n (by omega)
      omega
    · intro hn
      exact ⟨by omega, fun id hid => by omega⟩
  exact Nat.le_antisymm ((hle _).mpr (Nat.le_refl _)) ((hle _).mp (Nat.le_refl _))

namespace Extends

theorem refl (vocabulary : Vocabulary) : vocabulary.Extends vocabulary :=
  ⟨[], by simp⟩

/-- A count that has not overflowed did not on the way there. -/
theorem fits (h : grown.Extends vocabulary) (hf : grown.Fits) : vocabulary.Fits := by
  obtain ⟨tokens, ht⟩ := h
  rw [Fits, nextId_of_entries ht] at hf
  exact Nat.lt_of_le_of_lt (Nat.le_add_right _ _) hf

theorem trans {further : Vocabulary} (h : grown.Extends vocabulary) (h' : further.Extends grown) :
    further.Extends vocabulary := by
  obtain ⟨tokens, ht⟩ := h
  obtain ⟨others, ho⟩ := h'
  refine ⟨tokens ++ others, ?_⟩
  rw [ho, nextId_of_entries ht, ht, List.zipIdx_append, List.append_assoc]

end Extends

/-! ## Steps -/

/-- A token that is there already is not added. -/
theorem insert_eq_self {token : String} {id : Nat} (h : vocabulary.idOf? token = some id) :
    vocabulary.insert token = vocabulary := by
  rw [insert]
  split
  · rfl
  · rename_i hn
    rw [h] at hn
    cases hn

theorem insert_of_idOf? {token : String} (h : vocabulary.idOf? token = none) :
    (vocabulary.insert token).entries = vocabulary.entries ++ [token].zipIdx vocabulary.nextId := by
  rw [insert]
  split
  · rename_i hs
    rw [h] at hs
    cases hs
  · exact Fields.put_of_not_mem (Fields.get?_eq_none_iff.mp h) _

theorem extends_insert (vocabulary : Vocabulary) (token : String) :
    (vocabulary.insert token).Extends vocabulary := by
  cases h : vocabulary.idOf? token with
  | some id => rw [insert_eq_self h]; exact .refl vocabulary
  | none => exact ⟨[token], insert_of_idOf? h⟩

theorem extends_insertAll (vocabulary : Vocabulary) (tokens : List String) :
    (vocabulary.insertAll tokens).Extends vocabulary := by
  induction tokens generalizing vocabulary with
  | nil => exact .refl vocabulary
  | cons token rest ih => exact (extends_insert vocabulary token).trans (ih _)

theorem extends_addLine (vocabulary : Vocabulary) (line : String) :
    (vocabulary.addLine line).Extends vocabulary :=
  extends_insertAll vocabulary _

theorem extends_addLines {lines : List Document} (h : vocabulary.addLines lines = .ok grown) :
    grown.Extends vocabulary := by
  induction lines generalizing vocabulary with
  | nil =>
    cases h
    exact .refl _
  | cons line rest ih =>
    rw [addLines] at h
    split at h
    · exact (extends_addLine vocabulary _).trans (ih h)
    · cases h

theorem extends_addFile {bytes : ByteArray} (h : vocabulary.addFile bytes = .ok grown) :
    grown.Extends vocabulary :=
  extends_addLines h

theorem extends_addFiles {paths : List Path} {disk disk' : Disk}
    (h : Disk.Yields (Batch.addFiles vocabulary paths) disk grown disk') :
    grown.Extends vocabulary := by
  induction paths generalizing vocabulary disk with
  | nil =>
    cases h
    exact .refl _
  | cons path rest ih =>
    rw [Batch.addFiles, List.foldlM_cons, Disk.yields_bind_iff] at h
    obtain ⟨next, between, hnext, hrest⟩ := h
    obtain ⟨bytes, loaded, -, hadd⟩ := Disk.yields_bind_iff.mp hnext
    exact (extends_addFile (Disk.yields_ofExcept_iff.mp hadd).1).trans (ih hrest)

/-! ## Runs -/

/-- Tokens are added to a vocabulary: one, the words of a line, or the words of some
files on a disk, all of which are there and hold text. -/
inductive Grows : Vocabulary → Vocabulary → Prop where
  | insert (vocabulary : Vocabulary) (token : String) : Grows vocabulary (vocabulary.insert token)
  | addLine (vocabulary : Vocabulary) (line : String) : Grows vocabulary (vocabulary.addLine line)
  | addFiles {vocabulary grown : Vocabulary} (paths : List Path) {disk disk' : Disk}
      (h : Disk.Yields (Batch.addFiles vocabulary paths) disk grown disk') :
      Grows vocabulary grown

theorem extends_of_grows (h : Grows vocabulary grown) : grown.Extends vocabulary := by
  cases h with
  | insert token => exact extends_insert vocabulary token
  | addLine line => exact extends_addLine vocabulary line
  | addFiles paths h => exact extends_addFiles h

theorem extends_of_grown (h : ReflTransGen Grows vocabulary grown) :
    grown.Extends vocabulary := by
  induction h with
  | refl => exact .refl vocabulary
  | tail _ hstep ih => exact ih.trans (extends_of_grows hstep)

/-! ## Inverses -/

/-- Ids without gaps run up to the next one. -/
theorem nextId_of_gapless (h : vocabulary.Gapless) : vocabulary.nextId = vocabulary.size := by
  refine Nat.le_antisymm (nextId_le_iff.mpr (Vocabulary.gapless_iff.mp h).2) ?_
  by_contra hlt
  have hm : vocabulary.nextId ∈ vocabulary.ids := h.symm.subset (List.mem_range.mpr (by omega))
  have := nextId_le_iff.mp (Nat.le_refl _) _ hm
  omega

/-- Ids that are added leave gaps open and shared ids shared. -/
theorem Extends.gapless_iff (h : grown.Extends vocabulary) :
    grown.Gapless ↔ vocabulary.Gapless := by
  obtain ⟨tokens, ht⟩ := h
  have hi := ids_of_entries ht
  have hs := size_of_entries ht
  constructor
  · intro hg
    obtain ⟨hd, hl⟩ := Vocabulary.gapless_iff.mp hg
    rw [hi, List.forall_mem_append] at hl
    rw [hi] at hd
    refine Vocabulary.gapless_iff.mpr ⟨(List.nodup_append.mp hd).1, ?_⟩
    rcases Nat.eq_zero_or_pos tokens.length with h0 | hpos
    · intro id hid
      have := hl.1 id hid
      omega
    · -- the last of the new ids is in range, so the first is at most the size
      have := hl.2 (vocabulary.nextId + (tokens.length - 1)) (List.mem_range'_1.mpr (by omega))
      exact nextId_le_iff.mp (by omega)
  · intro hv
    rw [Gapless, hi, hs, nextId_of_gapless hv, List.range_eq_range', ← List.range'_append_1,
      Nat.zero_add, ← List.range_eq_range']
    exact hv.append_right _

/-! ## Ids of tokens -/

theorem lt_nextId_of_idOf? {token : String} {id : Nat} (h : vocabulary.idOf? token = some id) :
    id < vocabulary.nextId :=
  nextId_le_iff.mp (Nat.le_refl _) id (mem_ids_iff.mpr ⟨token, h⟩)

theorem idOf?_of_entries {tokens : List String}
    (h : grown.entries = vocabulary.entries ++ tokens.zipIdx vocabulary.nextId) (token : String) :
    grown.idOf? token =
      (vocabulary.idOf? token).or (Fields.get? (tokens.zipIdx vocabulary.nextId) token) := by
  rw [idOf?, h, Fields.get?_append, idOf?]

theorem Extends.idOf? (h : grown.Extends vocabulary) {token : String} {id : Nat}
    (hid : vocabulary.idOf? token = some id) : grown.idOf? token = some id := by
  obtain ⟨tokens, ht⟩ := h
  rw [idOf?_of_entries ht, hid, Option.some_or]

/-- The id of a token that is new stands with it among the new ones. -/
theorem mem_zipIdx_of_idOf? {tokens : List String}
    (h : grown.entries = vocabulary.entries ++ tokens.zipIdx vocabulary.nextId) {token : String}
    {id : Nat} (hn : vocabulary.idOf? token = none) (hid : grown.idOf? token = some id) :
    (token, id) ∈ tokens.zipIdx vocabulary.nextId := by
  rw [idOf?_of_entries h, hn, Option.none_or] at hid
  exact Fields.mem_of_get? hid

/-- No other token has the id of a token that is new. -/
theorem Extends.eq_of_idOf? (h : grown.Extends vocabulary) {token other : String} {id : Nat}
    (hn : vocabulary.idOf? token = none) (hid : grown.idOf? token = some id)
    (ho : grown.idOf? other = some id) : other = token := by
  obtain ⟨tokens, ht⟩ := h
  obtain ⟨hle, hget⟩ := List.mk_mem_zipIdx_iff_le_and_getElem?_sub.mp (mem_zipIdx_of_idOf? ht hn hid)
  cases hv : vocabulary.idOf? other with
  | some earlier =>
    have he := Extends.idOf? ⟨tokens, ht⟩ hv
    rw [ho] at he
    have hlt := lt_nextId_of_idOf? hv
    rw [← Option.some.inj he] at hlt
    omega
  | none =>
    have hother := mem_zipIdx_of_idOf? ht hv ho
    obtain ⟨-, hget'⟩ := List.mk_mem_zipIdx_iff_le_and_getElem?_sub.mp hother
    exact Option.some.inj (hget'.symm.trans hget)

/-- In a vocabulary that has grown, by any steps, every token keeps its id, the new
tokens have the ids from the next one on, none of them that of another token, and
there is an inverse just if there was one before. If the count is still a number of 32
bits, then it always was, and so are the ids. -/
theorem invert_grown (h : ReflTransGen Grows vocabulary grown) :
    (∃ tokens : List String,
      grown.entries = vocabulary.entries ++ tokens.zipIdx vocabulary.nextId ∧
      grown.nextId = vocabulary.nextId + tokens.length) ∧
    (∀ token id, vocabulary.idOf? token = some id → grown.idOf? token = some id) ∧
    (∀ token id, vocabulary.idOf? token = none → grown.idOf? token = some id →
      ∀ other, grown.idOf? other = some id → other = token) ∧
    ((∃ inverse, grown.invert = .ok inverse) ↔ ∃ inverse, vocabulary.invert = .ok inverse) ∧
    (grown.Fits → vocabulary.Fits ∧
      ∀ token id, grown.idOf? token = some id → id + 1 < UInt32.size) := by
  have hg := extends_of_grown h
  refine ⟨?_, fun token id hid => hg.idOf? hid,
    fun token id hn hid other ho => hg.eq_of_idOf? hn hid ho, ?_, fun hf => ⟨hg.fits hf, ?_⟩⟩
  · obtain ⟨tokens, ht⟩ := hg
    exact ⟨tokens, ht, nextId_of_entries ht⟩
  · rw [invert_ok_iff, invert_ok_iff, hg.gapless_iff]
  · exact fun token id hid => fits_iff.mp hf id (mem_ids_iff.mpr ⟨token, hid⟩)

/-- A mapping with a gap, a shared id and an id out of order. -/
def gapped : Vocabulary :=
  ofPairs [("if", 7), ("(", 2), ("x", 2)]

/-- The mapping grown by a token and by a line. -/
theorem invert_grown_gap :
    ReflTransGen Grows gapped ((gapped.insert "else").addLine "if ( y )") ∧
    (∀ token id, gapped.idOf? token = some id →
      ((gapped.insert "else").addLine "if ( y )").idOf? token = some id) ∧
    ((∃ inverse, ((gapped.insert "else").addLine "if ( y )").invert = .ok inverse) ↔
      ∃ inverse, gapped.invert = .ok inverse) ∧
    ((gapped.insert "else").addLine "if ( y )").Fits ∧ gapped.Fits := by
  have h : ReflTransGen Grows gapped ((gapped.insert "else").addLine "if ( y )") :=
    .tail (.single (.insert _ "else")) (.addLine _ "if ( y )")
  obtain ⟨-, hkeep, -, hinvert, hfits⟩ := invert_grown h
  have hf : ((gapped.insert "else").addLine "if ( y )").Fits :=
    (by decide : Vocabulary.nextId _ < UInt32.size)
  exact ⟨h, hkeep, hinvert, hf, (hfits hf).1⟩

end TreeSeq.Vocabulary
