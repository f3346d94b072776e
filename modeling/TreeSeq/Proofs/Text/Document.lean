import TreeSeq.Text.Document

/-!
# Texts as documents

The document of a text is that of its parts, one after the other, and what a file with
this text holds (`ofBytes_toUTF8`).
-/

namespace TreeSeq.Document

@[simp] theorem ofText_append (a b : String) : ofText (a ++ b) = ofText a ++ ofText b := by
  simp [ofText]

@[simp] theorem ofText_push (text : String) (c : Char) :
    ofText (text.push c) = ofText text ++ [.char c] := by
  simp [ofText]

theorem ofText_ofList (characters : List Char) :
    ofText (String.ofList characters) = characters.map .char := by
  simp [ofText]

theorem fromUTF8?_toUTF8 (text : String) : String.fromUTF8? text.toUTF8 = some text :=
  dif_pos text.isValidUTF8

theorem ofBytes_toUTF8 (text : String) : ofBytes text.toUTF8 = ofText text := by
  rw [ofBytes, fromUTF8?_toUTF8]

end TreeSeq.Document
