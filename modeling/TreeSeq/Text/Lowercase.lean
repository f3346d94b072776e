import TreeSeq.Text.Case

/-!
# Lower case

The full lower-case form of a text. Two characters have a rule of their own:
`İ` becomes `i` with a dot above, and a capital sigma becomes `ς` at the end of
a word and `σ` elsewhere. A word ends at a sigma when a cased character comes
before it and none after it, characters that case rules skip not counting.
-/

namespace TreeSeq.Text

namespace Case

/-- Does a run hold this code point? -/
def LowerRun.holds (run : LowerRun) (n : Nat) : Bool :=
  run.first ≤ n && n ≤ run.last && (n - run.first) % run.step == 0

/-- The lower-case character of a character, itself if it has none. -/
def lowerChar (c : Char) : Char :=
  if c.toNat < 0x80 then c.toLower
  else match lowerRuns.find? (LowerRun.holds · c.toNat) with
    | some run => Char.ofNat (Int.toNat (c.toNat + run.offset))
    | none => c

/-- Is the first character that case rules do not skip a cased one? -/
def startsCased (text : List Char) : Bool :=
  match text.dropWhile (ignorable.contains ·.toNat) with
  | c :: _ => cased.contains c.toNat
  | [] => false

end Case

/-- The lower-case form of a list of characters, `before` being what stands
before them, latest first. -/
def lowerFrom (before : List Char) : List Char → List Char → List Char
  | [], out => out.reverse
  | c :: rest, out =>
    let lowered :=
      if c == 'Σ' then
        if Case.startsCased before && !Case.startsCased rest then ['ς'] else ['σ']
      else if c == 'İ' then ['i', '\u0307']
      else [Case.lowerChar c]
    lowerFrom (c :: before) rest (lowered.reverse ++ out)

/-- The lower-case form of a text. -/
def lowercase (text : String) : String :=
  String.ofList (lowerFrom [] text.toList [])

end TreeSeq.Text
