/-!
# Blank characters and words

A blank is a character with the Unicode property `White_Space`. Words are the
longest runs of characters that are not blank; trimming drops the blanks at
both ends.
-/

namespace TreeSeq.Text

/-- The characters with the Unicode property `White_Space`. -/
def isBlank (c : Char) : Bool :=
  let n := c.toNat
  (0x09 ≤ n && n ≤ 0x0D) || n == 0x20 || n == 0x85 || n == 0xA0 || n == 0x1680 ||
    (0x2000 ≤ n && n ≤ 0x200A) || n == 0x2028 || n == 0x2029 || n == 0x202F ||
    n == 0x205F || n == 0x3000

/-- The words of a text, in order. -/
def words (text : String) : List String :=
  ((text.toList.splitOnP isBlank).filter (!·.isEmpty)).map String.ofList

/-- Drops the blanks at both ends. -/
def trim (text : String) : String :=
  String.ofList ((text.toList.dropWhile isBlank).reverse.dropWhile isBlank).reverse

/-- Is every character blank? -/
def allBlank (text : String) : Bool :=
  text.toList.all isBlank

/-- Is some character blank? -/
def anyBlank (text : String) : Bool :=
  text.toList.any isBlank

end TreeSeq.Text
