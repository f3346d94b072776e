import TreeSeq.Json.Strings
import TreeSeq.Proofs.Json.Printer
import TreeSeq.Proofs.Json.Reading

/-!
# Strings are read back

Each character is written as one escape or as itself, and one step of `Reader.text`
reads it back (`takes_textStep`); so a whole text is read back up to its closing
quote (`takes_text`).
-/

namespace TreeSeq.Json.Reader

open Document (ofText)

variable {rest : Document}

/-- Two hexadecimal digits are a number below 256. -/
theorem baseValue?_hexDigits : ∀ n < 0x20,
    Text.baseValue? 16 ['0', '0', hexDigit (n / 16), hexDigit (n % 16)] = some n := by
  decide

theorem takes_hexFour {a b c d : Char} {n : Nat} (h : Text.baseValue? 16 [a, b, c, d] = some n) :
    Takes hexFour (.char a :: .char b :: .char c :: .char d :: rest) n rest := by
  have hf : hexFour? (.char a :: .char b :: .char c :: .char d :: rest) = some (n, rest) := by
    rw [hexFour?, h]
    rfl
  refine (takes_get _).bind ?_
  rw [hf]
  exact (takes_set (by simp only [List.length_cons]; omega)).bind (takes_pure _ _)

/-- The code of a character below the surrogates. -/
theorem takes_codeEscape {a b c d e : Char} (h : Text.baseValue? 16 [a, b, c, d] = some e.toNat)
    (he : e.toNat < 0xD800) :
    Takes codeEscape (.char a :: .char b :: .char c :: .char d :: rest) e rest := by
  have hhigh : isHighSurrogate e.toNat = false := by
    simp only [isHighSurrogate, Bool.and_eq_false_iff, decide_eq_false_iff_not]
    omega
  have hlow : isLowSurrogate e.toNat = false := by
    simp only [isLowSurrogate, Bool.and_eq_false_iff, decide_eq_false_iff_not]
    omega
  refine (takes_hexFour h).bind ?_
  rw [hlow, hhigh, Char.ofNat_toNat]
  exact takes_pure _ _

theorem takes_escape_letter {c d : Char} (h : letterEscape? c = some d) :
    Takes escape (.char c :: rest) d rest := by
  have hu : c ≠ 'u' := by
    rintro rfl
    cases h
  refine (takes_next _ _).bind ?_
  split
  · rename_i he
    cases he
  · rename_i he
    cases he
  · rename_i he
    exact absurd (Symbol.char.inj (Option.some.inj he)) hu
  · rename_i he
    rw [← Symbol.char.inj (Option.some.inj he), h]
    exact takes_pure _ _

theorem takes_textStep_escape (seen : List Char) {input : Document} {c : Char}
    (h : Takes escape input c rest) :
    Takes (textStep (seen, true)) (.char '\\' :: input) (.inl (c :: seen, true)) rest :=
  (takes_next _ _).bind (h.bind (takes_pure _ _))

theorem takes_textStep_letter (seen : List Char) {c d : Char} (h : letterEscape? c = some d) :
    Takes (textStep (seen, true)) (ofText (String.ofList ['\\', c]) ++ rest)
      (.inl (d :: seen, true)) rest := by
  rw [Document.ofText_ofList]
  exact takes_textStep_escape seen (takes_escape_letter h)

theorem takes_textStep_plain (seen : List Char) {c : Char} (hq : c ≠ '"') (hs : c ≠ '\\')
    (hc : ¬c.toNat < 0x20) :
    Takes (textStep (seen, true)) (.char c :: rest) (.inl (c :: seen, true)) rest := by
  refine (takes_next _ _).bind ?_
  split
  · rename_i he
    cases he
  · rename_i he
    cases he
  · rename_i he
    exact absurd (Symbol.char.inj (Option.some.inj he)) hq
  · rename_i he
    exact absurd (Symbol.char.inj (Option.some.inj he)) hs
  · rename_i he
    rw [← Symbol.char.inj (Option.some.inj he), if_neg hc]
    exact takes_pure _ _

/-- A character that is written is read back. -/
theorem takes_textStep (seen : List Char) (c : Char) :
    Takes (textStep (seen, true)) (ofText (escaped c) ++ rest) (.inl (c :: seen, true)) rest := by
  unfold escaped
  split
  · exact takes_textStep_letter seen rfl
  · exact takes_textStep_letter seen rfl
  · exact takes_textStep_letter seen rfl
  · exact takes_textStep_letter seen rfl
  · exact takes_textStep_letter seen rfl
  · exact takes_textStep_letter seen rfl
  · exact takes_textStep_letter seen rfl
  · rename_i hquote hslash _ _ _ _ _
    split
    · rename_i hc
      rw [Document.ofText_ofList]
      refine takes_textStep_escape seen ((takes_next _ _).bind ?_)
      exact takes_codeEscape (baseValue?_hexDigits _ hc) (by omega)
    · rename_i hc
      rw [Char.toString, String.singleton_eq_ofList, Document.ofText_ofList]
      exact takes_textStep_plain seen hquote hslash hc

theorem escaped_ne_nil (c : Char) : ofText (escaped c) ≠ [] := by
  intro h
  have hstep : Takes (textStep ([], true)) (ofText (escaped c) ++ []) (.inl ([c], true)) [] :=
    takes_textStep [] c
  rw [h] at hstep
  -- where nothing is written nothing can be read
  cases hstep.2 0 (Nat.le_refl _)

theorem loops_text (characters seen : List Char) (rest : Document) :
    Loops textStep (seen, true)
      (characters.flatMap (fun c => ofText (escaped c)) ++ .char '"' :: rest)
      (String.ofList (seen.reverse ++ characters)) rest := by
  induction characters generalizing seen with
  | nil =>
    rw [List.flatMap_nil, List.nil_append, List.append_nil]
    exact .done ((takes_next _ _).bind (takes_pure _ _))
  | cons c characters ih =>
    have h := ih (c :: seen)
    rw [List.reverse_cons, List.append_assoc, List.singleton_append] at h
    rw [List.flatMap_cons, List.append_assoc]
    refine .more (takes_textStep seen c) ?_ h
    have := List.length_pos_iff.mpr (escaped_ne_nil c)
    simp only [List.length_append]
    omega

/-- A text is read back up to its closing quote. -/
theorem takes_text (s : String) : Takes text (escapedText s ++ .char '"' :: rest) s rest := by
  have h := (loops_text s.toList [] rest).takes
  rwa [List.reverse_nil, List.nil_append, String.ofList_toList] at h

end TreeSeq.Json.Reader
