import TreeSeq.Error
import TreeSeq.Fields
import TreeSeq.Text.Blank
import TreeSeq.Text.Document

/-!
# Vocabularies

A vocabulary gives tokens ids. It counts the id that the next new token gets,
which is always the one after the greatest in use, so ids are handed out in
first-seen order and no id that is in use is given again. `ofPairs` takes any
mapping as it is: its ids may leave gaps or coincide, and growing it neither
fills the gaps nor separates the ids.

Ids are numbers of 32 bits. As long as the count is one too (`Fits`), it does
not overflow.
-/

namespace TreeSeq

/-- The id after the greatest one among some tokens. -/
def Vocabulary.idAfter (entries : Fields Nat) : Nat :=
  (entries.map (·.2 + 1)).foldl max 0

/-- Tokens with their ids, in the order in which they were added. -/
structure Vocabulary where
  entries : Fields Nat
  /-- The id that the next new token gets. -/
  nextId : Nat
  /-- A token has one id. -/
  distinct : Fields.Distinct entries
  /-- The next id is the one after the greatest in use. -/
  next : nextId = Vocabulary.idAfter entries

namespace Vocabulary

theorem idAfter_append (entries : Fields Nat) (token : String) (id : Nat) :
    idAfter (entries ++ [(token, id)]) = max (idAfter entries) (id + 1) := by
  rw [idAfter, idAfter, List.map_append, List.foldl_append]
  rfl

/-- These tokens with their ids. -/
def ofEntries (entries : Fields Nat) (distinct : Fields.Distinct entries) : Vocabulary :=
  ⟨entries, idAfter entries, distinct, rfl⟩

/-- No token. -/
def empty : Vocabulary :=
  ⟨[], 0, Fields.distinct_nil, rfl⟩

instance : Inhabited Vocabulary := ⟨empty⟩

/-- The ids, and the one that is counted, are numbers of 32 bits. -/
def Fits (vocabulary : Vocabulary) : Prop :=
  vocabulary.nextId < UInt32.size

/-- How many tokens there are. -/
def size (vocabulary : Vocabulary) : Nat :=
  vocabulary.entries.length

/-- The id of a token. -/
def idOf? (vocabulary : Vocabulary) (token : String) : Option Nat :=
  Fields.get? vocabulary.entries token

/-- The count goes on by one where a new token gets the next id. -/
theorem nextId_succ {vocabulary : Vocabulary} {token : String}
    (h : vocabulary.idOf? token = none) : vocabulary.nextId + 1 =
      idAfter (Fields.put vocabulary.entries token vocabulary.nextId) := by
  rw [Fields.put_of_not_mem (Fields.get?_eq_none_iff.mp h), idAfter_append, ← vocabulary.next]
  omega

/-- Adds a token, unless it is there already. -/
def insert (vocabulary : Vocabulary) (token : String) : Vocabulary :=
  match h : vocabulary.idOf? token with
  | some _ => vocabulary
  | none =>
    ⟨Fields.put vocabulary.entries token vocabulary.nextId, vocabulary.nextId + 1,
      vocabulary.distinct.put _ _, nextId_succ h⟩

/-- Adds tokens in order. -/
def insertAll (vocabulary : Vocabulary) (tokens : List String) : Vocabulary :=
  tokens.foldl insert vocabulary

/-- Adds the words of a line. -/
def addLine (vocabulary : Vocabulary) (line : String) : Vocabulary :=
  vocabulary.insertAll (Text.words line)

/-- The vocabulary of the words of some lines. -/
def ofLines (lines : List String) : Vocabulary :=
  lines.foldl addLine empty

/-- A mapping as it is. A repeated token takes its last id. -/
def ofPairs (pairs : List (String × Nat)) : Vocabulary :=
  ofEntries (Fields.ofPairs pairs) (Fields.distinct_ofPairs pairs)

/-- Gives a token an id. -/
def put (vocabulary : Vocabulary) (token : String) (id : Nat) : Vocabulary :=
  ofEntries (Fields.put vocabulary.entries token id) (vocabulary.distinct.put _ _)

/-- Do two vocabularies give the same tokens the same ids, the next new one too? -/
def same (a b : Vocabulary) : Bool :=
  Fields.same a.entries b.entries && a.nextId == b.nextId

/-- Adds the words of each line, as long as the lines are text. -/
def addLines (vocabulary : Vocabulary) : List Document → Except Error Vocabulary
  | [] => .ok vocabulary
  | line :: rest =>
    match line.text? with
    | some text => addLines (vocabulary.addLine text) rest
    | none => .error (.file .notText)

/-- Adds the words of a text file. -/
def addFile (vocabulary : Vocabulary) (bytes : ByteArray) : Except Error Vocabulary :=
  vocabulary.addLines (Document.ofBytes bytes).lines

end Vocabulary

end TreeSeq
