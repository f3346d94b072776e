import TreeSeq.Text.Unprintable

/-!
# Quoted text for messages

A text in double quotes as messages show it: quotes, backslashes and the usual
controls are escaped by one letter, every other character without a glyph of
its own by its code point in lower-case hexadecimal digits.
-/

namespace TreeSeq.Text

/-- The hexadecimal digits of a number, lower case and without padding. -/
def hexDigits (n : Nat) : String :=
  String.ofList (Nat.toDigits 16 n)

/-- How a character is written inside quotes. -/
def quotedChar (c : Char) : String :=
  match c with
  | '"' => "\\\""
  | '\\' => "\\\\"
  | '\n' => "\\n"
  | '\r' => "\\r"
  | '\t' => "\\t"
  | '\x00' => "\\0"
  | c => if isUnprintable c then "\\u\x7b" ++ hexDigits c.toNat ++ "\x7d" else c.toString

/-- A text in quotes. -/
def quoted (text : String) : String :=
  (text.toList.foldl (fun out c => out ++ quotedChar c) "\"").push '"'

end TreeSeq.Text
