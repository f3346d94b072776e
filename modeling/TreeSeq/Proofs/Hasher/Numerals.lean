import TreeSeq.Proofs.Hasher.Streams
import Mathlib.Data.Nat.Digits.Defs

/-!
# Which lines are token streams

A numeral is one or more ASCII digits with one plus sign in front at most, and stands for
the number that its digits make up in base ten (`Text.Denotes`): leading zeros do not
count. The words of a stream are numerals of numbers that have 32 bits.

* `Text.readBelow?_eq_some_iff`: numerals below a limit are read, and nothing else;
* `TokenStream.exists_parse_iff`, `TokenStream.parse_eq_error_iff_append`: which lines are
  streams, and what is told of the others;
* `TokenStream.parse_iff_isItem`: all of this, and streams are read back.
-/

namespace TreeSeq

namespace Text

variable {text : String} {digits : List Char} {n limit : Nat}

/-- The text is a numeral for `n`. -/
def Denotes (text : String) (n : Nat) : Prop :=
  ∃ digits ≠ [], (∀ c ∈ digits, isDigit c = true) ∧
    (text.toList = digits ∨ text.toList = '+' :: digits) ∧
      n = Nat.ofDigits 10 (digits.reverse.map digitValue)

theorem digitsValue_eq_ofDigits (digits : List Char) :
    digitsValue digits = Nat.ofDigits 10 (digits.reverse.map digitValue) := by
  rw [digitsValue, Nat.ofDigits_eq_foldr, List.foldr_map, List.foldr_reverse]
  simp only [Nat.cast_id, Nat.add_comm]

theorem readDigits?_eq_some_iff :
    readDigits? digits = some n ↔ digits ≠ [] ∧ (∀ c ∈ digits, isDigit c = true) ∧
      n = Nat.ofDigits 10 (digits.reverse.map digitValue) := by
  rw [readDigits?, ← digitsValue_eq_ofDigits]
  simp [and_assoc, eq_comm (b := n)]

/-- The numerals below the limit are read. -/
theorem readBelow?_eq_some_iff : readBelow? limit text = some n ↔ Denotes text n ∧ n < limit := by
  have hplus : ∀ {digits : List Char}, (∀ c ∈ digits, isDigit c = true) →
      ∀ rest, digits ≠ '+' :: rest := fun hd rest he =>
    absurd (hd '+' (he ▸ List.mem_cons_self)) (by decide)
  rw [readBelow?, Option.filter_eq_some_iff, decide_eq_true_iff]
  refine and_congr_left fun _ => ?_
  split
  · rename_i rest ht
    rw [readDigits?_eq_some_iff]
    constructor
    · rintro ⟨hne, hd, hn⟩
      exact ⟨rest, hne, hd, .inr ht, hn⟩
    · rintro ⟨digits, hne, hd, he | he, hn⟩
      · exact absurd (he.symm.trans ht) (hplus hd rest)
      · obtain rfl : rest = digits := by simpa using ht.symm.trans he
        exact ⟨hne, hd, hn⟩
  · rename_i ht
    rw [readDigits?_eq_some_iff]
    constructor
    · rintro ⟨hne, hd, hn⟩
      exact ⟨_, hne, hd, .inl rfl, hn⟩
    · rintro ⟨digits, hne, hd, rfl | he, hn⟩
      · exact ⟨hne, hd, hn⟩
      · exact absurd he (ht digits)

end Text

namespace TokenStream

variable {line : String} {e : Error}

/-- The word is a numeral of an id. -/
def IsItem (word : String) : Prop :=
  ∃ id < 2 ^ 32, Text.Denotes word id

theorem isSome_readBelow?_iff {word : String} :
    (Text.readBelow? idLimit word).isSome = true ↔ IsItem word := by
  simp only [Option.isSome_iff_exists, Text.readBelow?_eq_some_iff, IsItem, and_comm]
  rfl

theorem exists_parse_iff :
    (∃ stream, parse line = .ok stream) ↔ ∀ word ∈ Text.words line, IsItem word :=
  collects_ofWords.exists_ok_iff.trans (forall₂_congr fun _ _ => isSome_readBelow?_iff)

/-- The first word that is no item is told. -/
theorem parse_eq_error_iff_append :
    parse line = .error e ↔ ∃ front word back, Text.words line = front ++ word :: back ∧
      (∀ earlier ∈ front, IsItem earlier) ∧ ¬ IsItem word ∧ e = .tokenStream word := by
  have hnone : ∀ word, (Text.readBelow? idLimit word).isNone ↔ ¬ IsItem word := fun word => by
    rw [← isSome_readBelow?_iff, Option.isNone_iff_eq_none, Option.not_isSome_iff_eq_none]
  simp only [parse_eq_error_iff, List.find?_eq_some_iff_append, hnone, Bool.not_eq_eq_eq_not,
    Bool.not_true, ← Bool.not_eq_true, not_not]
  constructor
  · rintro ⟨word, ⟨hw, front, back, hs, hf⟩, rfl⟩
    exact ⟨front, word, back, hs, hf, hw, rfl⟩
  · rintro ⟨front, word, back, hs, hf, hw, rfl⟩
    exact ⟨word, ⟨hw, front, back, hs, hf⟩, rfl⟩

/-- A line read and written again. -/
def rewritten (line : String) : Except Error String :=
  text <$> parse line

theorem rewritten_of_parse {stream : TokenStream} (h : parse line = .ok stream) :
    rewritten stream.text = .ok stream.text := by
  have hs := (parse_eq_ok_iff.mp h).flip
  simp only [Text.readBelow?_eq_some_iff, and_comm, List.forall₂_and_left] at hs
  rw [rewritten, parse_text hs.2]
  rfl

/-- A line that was rewritten once stays as it is. -/
theorem rewritten_bind (line : String) : rewritten line >>= rewritten = rewritten line := by
  cases h : parse line with
  | error e =>
    rw [rewritten, h]
    rfl
  | ok stream =>
    have hline : rewritten line = .ok stream.text := by
      rw [rewritten, h]
      rfl
    rw [hline]
    exact rewritten_of_parse h

/-- A line is a stream just if its words are numerals of numbers that have 32 bits, which
are its ids in order; otherwise the first word that is none is told. Numbers that have 32
bits are read back from their text, so a line that was rewritten once stays as it is. -/
theorem parse_iff_isItem (line : String) :
    (∀ stream, parse line = .ok stream ↔
      List.Forall₂ (fun word id => Text.Denotes word id ∧ id < 2 ^ 32) (Text.words line) stream) ∧
    ((∃ stream, parse line = .ok stream) ↔ ∀ word ∈ Text.words line, IsItem word) ∧
    (∀ e, parse line = .error e ↔ ∃ front word back, Text.words line = front ++ word :: back ∧
      (∀ earlier ∈ front, IsItem earlier) ∧ ¬ IsItem word ∧ e = .tokenStream word) ∧
    (∀ ids : List UInt32, parse (text (ids.map UInt32.toNat)) = .ok (ids.map UInt32.toNat)) ∧
    rewritten line >>= rewritten = rewritten line := by
  refine ⟨fun stream => ?_, exists_parse_iff, fun e => parse_eq_error_iff_append, fun ids => ?_,
    rewritten_bind line⟩
  · rw [parse_eq_ok_iff]
    simp only [Text.readBelow?_eq_some_iff]
    rfl
  · refine parse_text fun id hid => ?_
    obtain ⟨n, -, rfl⟩ := List.mem_map.mp hid
    exact n.toNat_lt

/-- Leading zeros, a plus sign, and the numbers on both sides of the limit. -/
theorem parse_iff_isItem_limits :
    parse "7\t+0004294967295" = .ok [7, 4294967295] ∧ IsItem "+0004294967295" ∧
      parse "7 4294967296 x" = .error (.tokenStream "4294967296") ∧ ¬ IsItem "4294967296" := by
  have hread : parse "7\t+0004294967295" = .ok [7, 4294967295] := by rfl
  have hrefused : parse "7 4294967296 x" = .error (.tokenStream "4294967296") := by rfl
  refine ⟨hread, ?_, hrefused, ?_⟩
  · exact (parse_iff_isItem _).2.1.mp ⟨_, hread⟩ _ (by decide)
  · obtain ⟨front, word, back, -, -, hw, he⟩ := ((parse_iff_isItem _).2.2.1 _).mp hrefused
    cases he
    exact hw

end TokenStream

end TreeSeq
