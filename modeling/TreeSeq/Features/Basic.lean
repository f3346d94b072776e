import TreeSeq.Sequence.Basic

/-!
# Features of records and the columns that count them

A feature is a name with a value: the type of a record, a plain attribute, or
an element of a list attribute with its position. `Columns` number features in
the order in which they were first seen, and a column never moves. The vector
of a record counts each of its features in the column of that feature.

Columns are grown by `observe`, or on the way by `singlePass`, which makes each
vector as wide as the columns are when its record is reached. A snapshot of
the columns is the value itself.
-/

namespace TreeSeq

/-- A name with a value, at a position if it is an element of a list. -/
structure Feature where
  name : String
  position : Option Nat
  value : Scalar
  deriving DecidableEq, Inhabited

/-- The name under which the type of a record is a feature. -/
def typeFeatureName : String := "_nodetype"

/-- The features of an attribute: one for a scalar, one for each element of a
list. -/
def Literal.features (name : String) : Literal → List Feature
  | .one value => [⟨name, none, value⟩]
  | .many values => values.mapIdx fun position value => ⟨name, some position, value⟩

/-- The features of a record, its type first. -/
def Record.features (record : Record) : List Feature :=
  ⟨typeFeatureName, none, .text record.nodeType⟩ ::
    record.scalars.flatMap fun field => field.2.features field.1

/-- Features in the order of their columns. -/
structure Columns where
  features : List Feature
  /-- A feature has one column. -/
  distinct : features.Nodup

namespace Columns

/-- No column. -/
def empty : Columns :=
  ⟨[], List.nodup_nil⟩

instance : Inhabited Columns := ⟨empty⟩

/-- How many columns there are. -/
def width (columns : Columns) : Nat :=
  columns.features.length

/-- The column of a feature. -/
def columnOf? (columns : Columns) (feature : Feature) : Option Nat :=
  columns.features.idxOf? feature

/-- The feature of a column. -/
def featureAt? (columns : Columns) (column : Nat) : Option Feature :=
  columns.features[column]?

/-- Gives a feature a column of its own at the end, unless it has one. -/
def add (columns : Columns) (feature : Feature) : Columns :=
  if h : feature ∈ columns.features then columns
  else ⟨columns.features ++ [feature], by
    rw [List.nodup_append]
    refine ⟨columns.distinct, by simp, ?_⟩
    intro a ha b hb
    simp only [List.mem_singleton] at hb
    subst hb
    exact fun e => h (e ▸ ha)⟩

/-- Adds features in order. -/
def addAll (columns : Columns) (features : List Feature) : Columns :=
  features.foldl add columns

/-- Columns of features that may repeat, numbered by first occurrence. -/
def ofFeatures (features : List Feature) : Columns :=
  empty.addAll features

/-- Adds every feature of the records. -/
def observe (columns : Columns) (sequence : Sequence) : Columns :=
  sequence.foldl (fun columns record => columns.addAll record.features) columns

/-- How many columns are new once the records are observed. -/
def added (columns : Columns) (sequence : Sequence) : Nat :=
  (columns.observe sequence).width - columns.width

/-- A vector with one more in a column. -/
def count (vector : List Nat) (column : Nat) : List Nat :=
  vector.modify column (· + 1)

/-- The vector of a record: how often it has the feature of each column.
Features without a column do not count. -/
def vector (columns : Columns) (record : Record) : List Nat :=
  (record.features.filterMap columns.columnOf?).foldl count (List.replicate columns.width 0)

/-- The vectors of all records. -/
def vectors (columns : Columns) (sequence : Sequence) : List (List Nat) :=
  sequence.map columns.vector

/-- The column of a feature and the columns it is in, after adding it if it is
new. -/
def place (columns : Columns) (feature : Feature) : Nat × Columns :=
  match columns.columnOf? feature with
  | some column => (column, columns)
  | none => (columns.width, columns.add feature)

/-- The columns of features in order, adding the new ones on the way; `found`
holds those found before, latest first. -/
def placeAll (columns : Columns) (found : List Nat) : List Feature → List Nat × Columns
  | [] => (found.reverse, columns)
  | feature :: rest =>
    let (column, columns) := columns.place feature
    placeAll columns (column :: found) rest

/-- The vector of a record over the columns grown by its features. -/
def grow (columns : Columns) (record : Record) : List Nat × Columns :=
  let (found, columns) := columns.placeAll [] record.features
  (found.foldl count (List.replicate columns.width 0), columns)

/-- The vectors of the records, each over the columns seen so far, after those
made before, latest first. -/
def growAll (columns : Columns) (made : List (List Nat)) : Sequence → List (List Nat) × Columns
  | [] => (made.reverse, columns)
  | record :: rest =>
    let (vector, columns) := columns.grow record
    growAll columns (vector :: made) rest

/-- The vectors of the records, each over the columns seen so far, and the
columns in the end. -/
def singlePass (columns : Columns) (sequence : Sequence) : List (List Nat) × Columns :=
  columns.growAll [] sequence

end Columns

/-- The text of a vector. -/
def vectorText (vector : List Nat) : String :=
  " ".intercalate (vector.map toString)

end TreeSeq
