import TreeSeq.Json.Printer
import TreeSeq.Proofs.Text.Document

/-!
# What is written, symbol by symbol

The printers write after what is written already. Seen from a value they write its
symbols, whatever stands in front: `Value.symbols` is the recursion over the value
alone, and `ofText_prettyOnto` says that it is what the printer adds.
-/

namespace TreeSeq.Json

open Document (ofText)

/-! ## Strings and new lines -/

/-- A text as it stands between quotes. -/
def escapedText (text : String) : Document :=
  text.toList.flatMap fun c => ofText (escaped c)

/-- The symbols of a text in quotes. -/
def quoted (text : String) : Document :=
  .char '"' :: (escapedText text ++ [.char '"'])

theorem quoted_append (text : String) (rest : Document) :
    quoted text ++ rest = .char '"' :: (escapedText text ++ .char '"' :: rest) := by
  rw [quoted, List.cons_append, List.append_assoc, List.singleton_append]

theorem ofText_quoteOnto (out text : String) :
    ofText (quoteOnto out text) =
      ofText out ++ quoted text := by
  have h : ∀ (characters : List Char) (out : String),
      ofText (characters.foldl (fun out c => out ++ escaped c) out) =
        ofText out ++ characters.flatMap fun c => ofText (escaped c) := by
    intro characters
    induction characters with
    | nil => simp
    | cons c rest ih => simp [ih]
  rw [quoteOnto, Document.ofText_push, h, Document.ofText_push, quoted, escapedText]
  simp

/-- A new line, `depth` containers deep. -/
def line (depth : Nat) : Document :=
  .char '\n' :: List.replicate (2 * depth) (.char ' ')

theorem ofText_newline (out : String) (depth : Nat) :
    ofText (newline out depth) = ofText out ++ line depth := by
  have h : ∀ n : Nat, ofText ((out.push '\n').pushn ' ' n) =
      ofText (out.push '\n') ++ List.replicate n (.char ' ') := by
    intro n
    rw [String.pushn_eq_repeat_push]
    induction n with
    | zero => simp [Nat.repeat]
    | succ n ih => rw [Nat.repeat, Document.ofText_push, ih, List.replicate_succ']; simp
  rw [newline, h, line]
  simp

theorem ofText_colon : ofText ": " = [.char ':', .char ' '] := by decide

/-! ## Values -/

namespace Value

mutual

/-- The symbols of a value, `depth` containers deep. -/
def symbols (depth : Nat) : Value → Document
  | null => ofText "null"
  | bool b => ofText (if b then "true" else "false")
  | number n => ofText n.text
  | string s => quoted s
  | array [] => [.char '[', .char ']']
  | array (item :: rest) =>
    .char '[' :: (line (depth + 1) ++ item.symbols (depth + 1) ++ itemSymbols (depth + 1) rest ++
      line depth ++ [.char ']'])
  | object [] => [.char '{', .char '}']
  | object ((name, value) :: rest) =>
    .char '{' :: (line (depth + 1) ++ quoted name ++ [.char ':', .char ' '] ++
      value.symbols (depth + 1) ++ fieldSymbols (depth + 1) rest ++ line depth ++ [.char '}'])

/-- The symbols of the items after the first. -/
def itemSymbols (depth : Nat) : List Value → Document
  | [] => []
  | item :: rest => .char ',' :: (line depth ++ item.symbols depth ++ itemSymbols depth rest)

/-- The symbols of the fields after the first. -/
def fieldSymbols (depth : Nat) : List (String × Value) → Document
  | [] => []
  | (name, value) :: rest =>
    .char ',' :: (line depth ++ quoted name ++ [.char ':', .char ' '] ++ value.symbols depth ++
      fieldSymbols depth rest)

end

mutual

/-- A value is written symbol by symbol, whatever stands in front. -/
theorem ofText_prettyOnto (out : String) (depth : Nat) :
    ∀ value : Value, ofText (value.prettyOnto out depth) = ofText out ++ value.symbols depth
  | null | bool _ | number _ => by
    rw [prettyOnto, Document.ofText_append, symbols]
  | array [] | object [] => by
    rw [prettyOnto, Document.ofText_append, symbols]
    rfl
  | string s => by
    rw [prettyOnto, ofText_quoteOnto, symbols]
  | array (item :: rest) => by
    rw [prettyOnto, Document.ofText_push, ofText_newline, ofText_prettyItems _ _ rest,
      ofText_prettyOnto _ _ item, ofText_newline, Document.ofText_push, symbols]
    simp only [List.append_assoc, List.cons_append, List.nil_append]
  | object ((name, value) :: rest) => by
    rw [prettyOnto, Document.ofText_push, ofText_newline, ofText_prettyFields _ _ rest,
      ofText_prettyOnto _ _ value, Document.ofText_append, ofText_quoteOnto, ofText_newline,
      Document.ofText_push, symbols]
    simp only [List.append_assoc, List.cons_append, List.nil_append, ofText_colon]

theorem ofText_prettyItems (out : String) (depth : Nat) :
    ∀ items : List Value,
      ofText (prettyItems out depth items) = ofText out ++ itemSymbols depth items
  | [] => by rw [prettyItems, itemSymbols, List.append_nil]
  | item :: rest => by
    rw [prettyItems, ofText_prettyItems _ _ rest, ofText_prettyOnto _ _ item, ofText_newline,
      Document.ofText_push, itemSymbols]
    simp only [List.append_assoc, List.cons_append, List.nil_append]

theorem ofText_prettyFields (out : String) (depth : Nat) :
    ∀ fields : List (String × Value),
      ofText (prettyFields out depth fields) = ofText out ++ fieldSymbols depth fields
  | [] => by rw [prettyFields, fieldSymbols, List.append_nil]
  | (name, value) :: rest => by
    rw [prettyFields, ofText_prettyFields _ _ rest, ofText_prettyOnto _ _ value,
      Document.ofText_append, ofText_quoteOnto, ofText_newline, Document.ofText_push, fieldSymbols]
    simp only [List.append_assoc, List.cons_append, List.nil_append, ofText_colon]

end

/-- The text of a value, symbol by symbol. -/
theorem ofText_pretty (value : Value) : ofText value.pretty = value.symbols 0 := by
  rw [pretty, ofText_prettyOnto]
  rfl

end Value

end TreeSeq.Json
