import TreeSeq.Json.Numerals
import TreeSeq.Proofs.Json.Printer
import TreeSeq.Proofs.Json.Reading
import Mathlib.Data.List.Basic

/-!
# Whole numbers are read back

A whole number is written as its decimal digits, after a minus if it is negative
(`Numeral.ofInt`). In front of anything that does not continue a numeral the reader
takes just these characters (`takes_numeral`), and their value is the number if 64
bits hold it (`number?_ofInt`).
-/

namespace TreeSeq.Json

open Document (ofText)

/-! ## Decimal digits -/

theorem isDigit_of_mem_toDigits {n : Nat} {c : Char} (h : c ∈ Nat.toDigits 10 n) :
    Text.isDigit c = true :=
  Nat.isDigit_of_mem_toDigits (by omega) (by omega) h

theorem digitsValue_toDigits (n : Nat) : Text.digitsValue (Nat.toDigits 10 n) = n :=
  Nat.ofDigitChars_ten_toDigits

/-- Only zero is written with a zero in front. -/
theorem head?_toDigits {n : Nat} (h : 0 < n) : (Nat.toDigits 10 n).head? ≠ some '0' := by
  induction n using Nat.strongRecOn with
  | _ n ih =>
    by_cases hn : n < 10
    · rw [Nat.toDigits_of_lt_base hn, List.head?_cons, ne_eq, Option.some.injEq,
        Nat.digitChar_eq_zero]
      omega
    · rw [Nat.toDigits_of_base_le (by omega) (by omega),
        List.head?_append_of_ne_nil _ Nat.toDigits_ne_nil]
      exact ih (n / 10) (by omega) (by omega)

/-- A number whose digits start with a zero has no other digit. -/
theorem length_toDigits {n : Nat} (h : (Nat.toDigits 10 n).head? = some '0') :
    (Nat.toDigits 10 n).length = 1 := by
  cases n with
  | zero => rfl
  | succ n => exact absurd h (head?_toDigits n.succ_pos)

namespace Numeral

/-- The numeral that a whole number is written as. -/
def ofInt (n : Int) : Numeral :=
  ⟨decide (n < 0), Nat.toDigits 10 n.natAbs, none, none⟩

/-- The value of a numeral is exact where 64 bits hold it. -/
theorem number?_ofInt {n : Int} (h : Int64.minValue.toInt ≤ n) (h' : n < UInt64.size) :
    (ofInt n).number? = some (.integer n) := by
  have hmin : Int64.minValue.toInt < 0 := by decide
  have hsize : Text.digitsValue (ofInt n).whole = n.natAbs := digitsValue_toDigits _
  simp only [number?, hsize]
  by_cases hn : n < 0
  · have hneg : (ofInt n).negative = true := decide_eq_true hn
    have hpos : 0 < n.natAbs := by omega
    have hle : n.natAbs ≤ Int64.minValue.toInt.natAbs := by omega
    have habs : -(n.natAbs : Int) = n := by omega
    rw [if_neg (by rw [hneg]; exact Bool.false_ne_true),
      if_pos (by rw [hneg, decide_eq_true hpos, decide_eq_true hle]; rfl), habs]
  · have hneg : (ofInt n).negative = false := decide_eq_false hn
    have hlt : n.natAbs < UInt64.size := by omega
    have habs : (n.natAbs : Int) = n := by omega
    rw [if_pos (by rw [hneg, decide_eq_true hlt]; rfl), habs]

end Numeral

theorem ofText_integer (n : Int) :
    ofText (Number.integer n).text =
      (if n < 0 then [.char '-'] else []) ++ (Nat.toDigits 10 n.natAbs).map .char := by
  rw [Number.text, Int.toString_eq_repr, Int.repr_eq_if]
  by_cases hn : n < 0
  · have habs : (-n).toNat = n.natAbs := by omega
    rw [if_neg (by omega), if_pos hn, Document.ofText_append, habs, Nat.repr_eq_ofList_toDigits,
      Document.ofText_ofList, Document.ofText_ofList]
    rfl
  · have habs : n.toNat = n.natAbs := by omega
    rw [if_pos (by omega), if_neg hn, habs, Nat.repr_eq_ofList_toDigits, Document.ofText_ofList]
    rfl

/-- A minus or a digit stands in front of a numeral. -/
theorem exists_head_integer (n : Int) : ∃ c tail, ofText (Number.integer n).text = .char c :: tail ∧
    (c == '-' || Text.isDigit c) = true := by
  rw [ofText_integer]
  by_cases hn : n < 0
  · rw [if_pos hn]
    exact ⟨'-', _, rfl, by decide⟩
  · have hne : Nat.toDigits 10 n.natAbs ≠ [] := Nat.toDigits_ne_nil
    obtain ⟨c, digits, hd⟩ := List.exists_cons_of_ne_nil hne
    have hc : Text.isDigit c = true := isDigit_of_mem_toDigits (hd ▸ List.mem_cons_self)
    rw [if_neg hn, hd, List.nil_append, List.map_cons]
    exact ⟨c, _, rfl, by rw [hc, Bool.or_true]⟩

namespace Reader

variable {rest : Document}

theorem spanDigits_eq {digits : List Char} (hd : ∀ c ∈ digits, Text.isDigit c = true)
    (hr : ∀ c, rest.head? = some (.char c) → Text.isDigit c = false) (seen : List Char) :
    spanDigits seen (digits.map .char ++ rest) = (seen.reverse ++ digits, rest) := by
  induction digits generalizing seen with
  | nil =>
    rw [List.append_nil, List.map_nil, List.nil_append]
    unfold spanDigits
    split
    · rw [hr _ rfl]
      rfl
    · rfl
  | cons c digits ih =>
    rw [List.forall_mem_cons] at hd
    rw [List.map_cons, List.cons_append, spanDigits, if_pos hd.1, ih hd.2]
    simp

theorem takes_optionally (c : Char) (rest : Document) :
    Takes (optionally c) (.char c :: rest) true rest := by
  refine (takes_peek _).bind ?_
  rw [if_pos (by simp)]
  exact (takes_skip _ _).bind (takes_pure _ _)

theorem takes_optionally_absent {c : Char} {input : Document} (h : input.head? ≠ some (.char c)) :
    Takes (optionally c) input false input := by
  refine (takes_peek _).bind ?_
  rw [if_neg (by simpa using h)]
  exact takes_pure _ _

theorem takes_someDigits {atEnd : Fault} {digits : List Char} (hn : digits ≠ [])
    (hd : ∀ c ∈ digits, Text.isDigit c = true)
    (hr : ∀ c, rest.head? = some (.char c) → Text.isDigit c = false) :
    Takes (someDigits atEnd) (digits.map .char ++ rest) digits rest := by
  have hs : Takes Reader.digits (digits.map .char ++ rest) digits rest := by
    refine ⟨by simp, fun length _ => ?_⟩
    have h := spanDigits_eq hd hr []
    rw [List.reverse_nil, List.nil_append] at h
    exact congrArg Except.ok h
  refine hs.bind ?_
  rw [if_neg (by simpa using hn)]
  exact takes_pure _ _

/-- What does not continue a numeral. -/
def EndsNumeral (rest : Document) : Prop :=
  ∀ c, rest.head? = some (.char c) → Text.isDigit c = false ∧ c ≠ '.' ∧ c ≠ 'e' ∧ c ≠ 'E'

theorem takes_sign (n : Int) (rest : Document) :
    Takes (optionally '-') (ofText (Number.integer n).text ++ rest) (decide (n < 0))
      ((Nat.toDigits 10 n.natAbs).map .char ++ rest) := by
  rw [ofText_integer]
  by_cases hn : n < 0
  · rw [if_pos hn, decide_eq_true hn]
    exact takes_optionally _ _
  · rw [if_neg hn, decide_eq_false hn, List.nil_append]
    refine takes_optionally_absent fun h => ?_
    rw [List.head?_append_of_ne_nil _ (by simp [Nat.toDigits_ne_nil]), List.head?_map] at h
    obtain ⟨c, hc, he⟩ := Option.map_eq_some_iff.mp h
    have hd := isDigit_of_mem_toDigits (List.mem_of_head? hc)
    rw [Symbol.char.inj he] at hd
    cases hd

theorem takes_numeral (n : Int) (hr : EndsNumeral rest) (atEnd : Fault) :
    Takes (numeral atEnd) (ofText (Number.integer n).text ++ rest) (.ofInt n) rest := by
  have hz : ¬((Nat.toDigits 10 n.natAbs).head? == some '0' &&
      1 < (Nat.toDigits 10 n.natAbs).length) = true := by
    rw [Bool.and_eq_true, beq_iff_eq, decide_eq_true_iff]
    rintro ⟨hh, hl⟩
    rw [length_toDigits hh] at hl
    omega
  refine (takes_sign n rest).bind ?_
  refine (takes_someDigits Nat.toDigits_ne_nil (fun c => isDigit_of_mem_toDigits)
    fun c hc => (hr c hc).1).bind ?_
  dsimp only
  rw [if_neg hz]
  refine (takes_optionally_absent fun h => (hr _ h).2.1 rfl).bind ?_
  rw [if_neg Bool.false_ne_true]
  refine (takes_pure none _).bind ?_
  have hmarked : Takes (optionally 'e' <||> optionally 'E') rest false rest :=
    (takes_optionally_absent fun h => (hr _ h).2.2.1 rfl).bind
      (takes_optionally_absent fun h => (hr _ h).2.2.2 rfl)
  refine hmarked.bind ?_
  rw [if_neg Bool.false_ne_true]
  exact takes_pure _ _

theorem takes_number {n : Int} (h : Int64.minValue.toInt ≤ n) (h' : n < UInt64.size)
    (hr : EndsNumeral rest) :
    Takes number (ofText (Number.integer n).text ++ rest) (.integer n) rest := by
  refine (takes_numeral n hr .truncated).bind ?_
  rw [Numeral.number?_ofInt h h']
  exact takes_pure _ _

end Reader

end TreeSeq.Json
