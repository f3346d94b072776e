import TreeSeq.Vocabulary.Basic

/-!
# Inverting vocabularies

A vocabulary has an inverse when its ids are `0, 1, …` without gaps, each held
by one token. A mapping from ids to tokens has an inverse when no two ids have
the same token. The inverse of a vocabulary lists the ids in ascending order.
-/

namespace TreeSeq

/-- Ids with their tokens. -/
structure Inverse where
  entries : List (Nat × String)
  /-- An id has one token. -/
  distinct : Fields.Distinct entries

namespace Inverse

/-- No id. -/
def empty : Inverse :=
  ⟨[], Fields.distinct_nil⟩

instance : Inhabited Inverse := ⟨empty⟩

/-- How many ids there are. -/
def size (inverse : Inverse) : Nat :=
  inverse.entries.length

/-- The token of an id. -/
def tokenOf? (inverse : Inverse) (id : Nat) : Option String :=
  Fields.get? inverse.entries id

/-- A mapping as it is. A repeated id takes its last token. -/
def ofPairs (pairs : List (Nat × String)) : Inverse :=
  ⟨Fields.ofPairs pairs, Fields.distinct_ofPairs pairs⟩

/-- Gives an id a token. -/
def put (inverse : Inverse) (id : Nat) (token : String) : Inverse :=
  ⟨Fields.put inverse.entries id token, inverse.distinct.put _ _⟩

/-- The same mapping in ascending order of the ids. -/
def sorted (inverse : Inverse) : Inverse :=
  ⟨inverse.entries.mergeSort (·.1 ≤ ·.1), inverse.distinct.perm (List.mergeSort_perm _ _).symm⟩

/-- Gives the ids of some pairs to their tokens. Every token must be new. -/
def tokensInto (vocabulary : Vocabulary) : List (Nat × String) → Except Error Vocabulary
  | [] => .ok vocabulary
  | (id, token) :: rest =>
    match vocabulary.idOf? token with
    | some earlier => .error (.bijection (.sharedToken token earlier id))
    | none => tokensInto (vocabulary.put token id) rest

/-- The vocabulary that this is the inverse of. -/
def invert (inverse : Inverse) : Except Error Vocabulary :=
  tokensInto .empty inverse.sorted.entries

end Inverse

namespace Vocabulary

/-- Gives the tokens of some pairs to their ids. Every id must be below `size`
and new. -/
def idsInto (size : Nat) (inverse : Inverse) : List (String × Nat) → Except Error Inverse
  | [] => .ok inverse
  | (token, id) :: rest =>
    if size ≤ id then .error (.bijection (.idOutOfRange id token size))
    else match inverse.tokenOf? id with
      | some earlier => .error (.bijection (.sharedId id earlier token))
      | none => idsInto size (inverse.put id token) rest

/-- The mapping from ids to tokens. -/
def invert (vocabulary : Vocabulary) : Except Error Inverse :=
  match idsInto vocabulary.size .empty vocabulary.entries with
  | .ok inverse => .ok inverse.sorted
  | .error e => .error e

end Vocabulary

end TreeSeq
