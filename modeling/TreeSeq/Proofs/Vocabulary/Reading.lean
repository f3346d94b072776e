import TreeSeq.Proofs.Vocabulary.File

/-!
# Which texts are vocabulary files

A text is taken just if its lines hold no blank and differ. What is saved afterwards is the
text with bare line feeds (`unlines_fileLines`), and what is refused is the first line with
a fault (`readLines_eq_error`): since the lines before it were all taken, the id of a token
that is there already tells its line.

* `LineFault`: what is wrong with a line;
* `faultlessBefore_iff`: lines without a fault hold no blank and differ;
* `parse_eq_error_iff`: the fault that is reported;
* `parse_by_lines`: what is read, what is refused, and what is saved.
-/

namespace TreeSeq

namespace Text

/-! ## Line ends -/

/-- Drops each carriage return right before a line feed. -/
def bareFeeds : List Char → List Char
  | '\r' :: '\n' :: rest => '\n' :: bareFeeds rest
  | c :: rest => c :: bareFeeds rest
  | [] => []

/-- A text with each of its lines ended by a bare line feed, the last one too: a carriage
return at the very end is that of the last line. The empty text has no line. -/
def normalised (text : String) : String :=
  if text.isEmpty then ""
  else String.ofList (bareFeeds (dropLastIf '\n' text.toList ++ ['\n']))

theorem bareFeeds_cons {c : Char} {rest : List Char}
    (h : c = '\r' → rest.head? ≠ some '\n') : bareFeeds (c :: rest) = c :: bareFeeds rest := by
  rw [bareFeeds]
  rintro rest' hc rfl
  exact h hc rfl

theorem dropLastIf_cons_cons {α : Type} [BEq α] (last a b : α) (rest : List α) :
    dropLastIf last (a :: b :: rest) = a :: dropLastIf last (b :: rest) := by
  rw [dropLastIf, dropLastIf, List.getLast?_cons_cons]
  split <;> rfl

/-- A line loses the carriage return at its end. -/
theorem bareFeeds_line {line : List Char} (h : '\n' ∉ line) (rest : List Char) :
    bareFeeds (line ++ '\n' :: rest) = dropLastIf '\r' line ++ '\n' :: bareFeeds rest := by
  induction line with
  | nil => simp [bareFeeds, dropLastIf]
  | cons c line ih =>
    rw [List.mem_cons, not_or] at h
    cases line with
    | nil =>
      by_cases hc : c = '\r'
      · subst hc
        rfl
      · have hkeep : dropLastIf '\r' [c] = [c] := dropLastIf_of_getLast? (by simpa using hc)
        rw [List.singleton_append, bareFeeds_cons (absurd · hc), ← List.nil_append ('\n' :: rest),
          ih h.2, hkeep]
        rfl
    | cons d line =>
      have hd : d ≠ '\n' := fun he => h.2 (he ▸ List.mem_cons_self)
      rw [List.cons_append, bareFeeds_cons (by simpa using fun _ => hd), ih h.2,
        dropLastIf_cons_cons, List.cons_append]

theorem bareFeeds_flatMap {lines : List (List Char)} (h : ∀ line ∈ lines, '\n' ∉ line) :
    bareFeeds (lines.flatMap (· ++ ['\n'])) =
      lines.flatMap (fun line => dropLastIf '\r' line ++ ['\n']) := by
  induction lines with
  | nil => rfl
  | cons line rest ih =>
    obtain ⟨hl, hr⟩ := List.forall_mem_cons.mp h
    rw [List.flatMap_cons, List.flatMap_cons, List.append_assoc, List.singleton_append,
      bareFeeds_line hl, ih hr, List.append_assoc, List.singleton_append]

theorem intercalate_append_feed {lines : List (List Char)} (h : lines ≠ []) :
    ['\n'].intercalate lines ++ ['\n'] = lines.flatMap (· ++ ['\n']) := by
  induction lines with
  | nil => exact absurd rfl h
  | cons line rest ih =>
    cases rest with
    | nil => simp
    | cons next rest =>
      rw [List.intercalate_cons_cons, List.append_assoc, ih (List.cons_ne_nil _ _)]
      rfl

theorem toList_unlines (texts : List String) :
    (unlines texts).toList = texts.flatMap (·.toList ++ ['\n']) := by
  induction texts with
  | nil => rfl
  | cons text rest ih => rw [unlines_cons, String.toList_append, ih, String.toList_push]; rfl

/-- The lines of a file, written again. -/
theorem unlines_fileLines (text : String) :
    unlines (Vocabulary.fileLines text) = normalised text := by
  rw [Vocabulary.fileLines, normalised]
  split
  · rfl
  generalize dropLastIf '\n' text.toList = body
  have hpieces : ∀ piece ∈ body.splitOn '\n', '\n' ∉ piece := fun piece hp hm => by
    rw [List.splitOn_eq_splitOnP] at hp
    simpa using not_of_mem_splitOnP hp _ hm
  have hbody : body ++ ['\n'] = (body.splitOn '\n').flatMap (· ++ ['\n']) := by
    rw [← intercalate_append_feed (List.splitOn_ne_nil _ _), List.intercalate_splitOn]
  rw [← String.toList_inj, toList_unlines, String.toList_ofList, hbody, bareFeeds_flatMap hpieces,
    List.flatMap_map]
  simp only [String.toList_ofList]

end Text

namespace Vocabulary

variable {vocabulary : Vocabulary}

/-! ## Faults -/

/-- What the fault says is wrong with line `n`, counted from 0: there is a blank in it, or
it repeats an earlier line, the first of which has the number that the fault gives. -/
def LineFault (lines : List String) (n : Nat) : VocabularyFault → Prop
  | .blankInToken token => lines[n]? = some token ∧ Text.anyBlank token = true
  | .repeatedToken token line => lines[n]? = some token ∧
      (∃ earlier < n, lines[earlier]? = some token) ∧ line = lines.idxOf token + 1

/-- Nothing is wrong with the lines before line `n`. -/
def FaultlessBefore (lines : List String) (n : Nat) : Prop :=
  ∀ m < n, ∀ fault, ¬ LineFault lines m fault

theorem faultlessBefore_iff (done rest : List String) :
    FaultlessBefore (done ++ rest) done.length ↔
      (∀ token ∈ done, Text.anyBlank token = false) ∧ done.Nodup := by
  have hget : ∀ m (hm : m < done.length), (done ++ rest)[m]? = some done[m] := fun m hm => by
    rw [List.getElem?_append_left hm, List.getElem?_eq_getElem hm]
  constructor
  · intro h
    refine ⟨fun token ht => ?_, List.nodup_iff_getElem?_ne_getElem?.mpr fun i j hij hj he => ?_⟩
    · obtain ⟨m, hm, rfl⟩ := List.mem_iff_getElem.mp ht
      rw [← Bool.not_eq_true]
      exact fun hb => h m hm (.blankInToken _) ⟨hget m hm, hb⟩
    · have hi := hget i (Nat.lt_trans hij hj)
      rw [← List.getElem?_eq_getElem, he, List.getElem?_eq_getElem hj] at hi
      exact h j hj (.repeatedToken _ _) ⟨hget j hj, ⟨i, hij, hi⟩, rfl⟩
  · rintro ⟨hb, hd⟩ m hm fault hf
    cases fault with
    | blankInToken token =>
      obtain ⟨ht, hblank⟩ := hf
      obtain rfl := Option.some.inj (ht.symm.trans (hget m hm))
      rw [hb _ (List.getElem_mem hm)] at hblank
      cases hblank
    | repeatedToken token line =>
      obtain ⟨ht, ⟨earlier, hlt, he⟩, -⟩ := hf
      refine List.nodup_iff_getElem?_ne_getElem?.mp hd earlier m hlt hm ?_
      rwa [← List.getElem?_append_left (Nat.lt_trans hlt hm), ← List.getElem?_append_left hm, ht]

/-- Nothing is wrong with lines without blanks that differ. -/
theorem faultless_iff {lines : List String} :
    FaultlessBefore lines lines.length ↔
      (∀ token ∈ lines, Text.anyBlank token = false) ∧ lines.Nodup := by
  simpa using faultlessBefore_iff lines []

/-- One line is the first with a fault, and one fault is that of this line: what it repeats
would hold its blanks. -/
theorem LineFault.unique {lines : List String} {n n' : Nat} {fault fault' : VocabularyFault}
    (h : LineFault lines n fault) (hn : FaultlessBefore lines n) (h' : LineFault lines n' fault')
    (hn' : FaultlessBefore lines n') : n = n' ∧ fault = fault' := by
  obtain rfl : n = n' := by
    rcases Nat.lt_trichotomy n n' with hlt | he | hlt
    · exact absurd h (hn' n hlt fault)
    · exact he
    · exact absurd h' (hn n' hlt fault')
  refine ⟨rfl, ?_⟩
  have hearlier : ∀ token, (∃ m < n, lines[m]? = some token) → Text.anyBlank token = true → False :=
    fun token ⟨m, hm, ht⟩ hb => hn m hm (.blankInToken token) ⟨ht, hb⟩
  cases fault with
  | blankInToken token =>
    obtain ⟨ht, hblank⟩ := h
    cases fault' with
    | blankInToken token' => rw [Option.some.inj (ht.symm.trans h'.1)]
    | repeatedToken token' line' =>
      obtain ⟨ht', he', -⟩ := h'
      obtain rfl := Option.some.inj (ht.symm.trans ht')
      exact (hearlier _ he' hblank).elim
  | repeatedToken token line =>
    obtain ⟨ht, he, hl⟩ := h
    cases fault' with
    | blankInToken token' =>
      obtain ⟨ht', hblank'⟩ := h'
      obtain rfl := Option.some.inj (ht.symm.trans ht')
      exact (hearlier _ he hblank').elim
    | repeatedToken token' line' =>
      obtain ⟨ht', -, hl'⟩ := h'
      rw [hl, hl', Option.some.inj (ht.symm.trans ht')]

/-! ## Refusal -/

/-- The line that is refused is the first with a fault. The vocabulary has the lines before
it, which are why the id of a token tells where it stands. -/
theorem readLines_eq_error {done rest : List String} {e : Error}
    (hv : vocabulary.entries = done.zipIdx)
    (hb : ∀ token ∈ done, Text.anyBlank token = false)
    (h : readLines vocabulary (done.length + 1) rest = .error e) :
    ∃ n fault, e = .vocabulary (n + 1) fault ∧ LineFault (done ++ rest) n fault ∧
      FaultlessBefore (done ++ rest) n := by
  induction rest generalizing vocabulary done with
  | nil => cases h
  | cons token rest ih =>
    have hlists : vocabulary.Enumerates done := List.Perm.of_eq hv
    have hfaultless : FaultlessBefore (done ++ token :: rest) done.length :=
      (faultlessBefore_iff done _).mpr ⟨hb, hlists.nodup⟩
    have hline : (done ++ token :: rest)[done.length]? = some token := by simp
    rw [readLines] at h
    split at h
    · rename_i hblank
      cases h
      exact ⟨_, _, rfl, ⟨hline, hblank⟩, hfaultless⟩
    rename_i hblank
    cases hi : vocabulary.idOf? token with
    | some id =>
      rw [hi] at h
      cases h
      obtain ⟨hid, rfl⟩ := List.getElem?_eq_some_iff.mp (hlists.idOf?_eq_some_iff.mp hi)
      have hfirst : (done ++ done[id] :: rest).idxOf done[id] = id := by
        rw [List.idxOf_append_of_mem (List.getElem_mem hid), hlists.nodup.idxOf_getElem]
      have hearlier : (done ++ done[id] :: rest)[id]? = some done[id] := by
        rw [List.getElem?_append_left hid, List.getElem?_eq_getElem hid]
      exact ⟨_, _, rfl, ⟨hline, ⟨id, hid, hearlier⟩, by rw [hfirst]⟩, hfaultless⟩
    | none =>
      rw [hi] at h
      have hnext : (vocabulary.insert token).entries = (done ++ [token]).zipIdx := by
        rw [insert_of_idOf? hi, hv, List.zipIdx_append, nextId_of_gapless hlists.gapless,
          hlists.size, Nat.zero_add]
      rw [List.append_cons]
      refine ih hnext ?_ (by rwa [List.length_append])
      exact List.forall_mem_append.mpr ⟨hb, List.forall_mem_singleton.mpr (by simpa using hblank)⟩

/-- A text is read just if nothing is wrong with its lines. -/
theorem exists_parse_iff {text : String} :
    (∃ vocabulary, parse text = .ok vocabulary) ↔
      FaultlessBefore (fileLines text) (fileLines text).length := by
  rw [faultless_iff]
  constructor
  · rintro ⟨vocabulary, h⟩
    obtain ⟨hb, hd, -⟩ := parse_eq_ok_iff.mp h
    exact ⟨hb, hd⟩
  · rintro ⟨hb, hd⟩
    exact ⟨.ofEntries _ (distinct_zipIdx hd), parse_eq_ok_iff.mpr ⟨hb, hd, rfl⟩⟩

/-- What is reported is the first line with a fault, and what is wrong with it. -/
theorem parse_eq_error_iff {text : String} {e : Error} :
    parse text = .error e ↔ ∃ n fault, e = .vocabulary (n + 1) fault ∧
      LineFault (fileLines text) n fault ∧ FaultlessBefore (fileLines text) n := by
  have hfirst : ∀ {e}, parse text = .error e → ∃ n fault, e = .vocabulary (n + 1) fault ∧
      LineFault (fileLines text) n fault ∧ FaultlessBefore (fileLines text) n := fun h =>
    readLines_eq_error List.zipIdx_nil.symm (List.forall_mem_nil _) h
  refine ⟨hfirst, ?_⟩
  rintro ⟨n, fault, rfl, hf, hn⟩
  cases hp : parse text with
  | ok vocabulary =>
    -- every line is taken, so line `n` has no fault either
    have hlt : n < (fileLines text).length := by
      cases fault <;> exact (List.getElem?_eq_some_iff.mp hf.1).1
    exact absurd hf (exists_parse_iff.mp ⟨vocabulary, hp⟩ n hlt fault)
  | error e =>
    obtain ⟨n', fault', rfl, hf', hn'⟩ := hfirst hp
    obtain ⟨rfl, rfl⟩ := hf.unique hn hf' hn'
    rfl

/-- A text is read just if its lines hold no blank and differ. Then the id of a token is the
position of its line, and what is saved is the text with bare line feeds, one at its end
too. Otherwise the first line with a fault is reported, by its number counted from 1. -/
theorem parse_by_lines (text : String) :
    ((∃ vocabulary, parse text = .ok vocabulary) ↔
      (∀ token ∈ fileLines text, Text.anyBlank token = false) ∧ (fileLines text).Nodup) ∧
    (∀ vocabulary, parse text = .ok vocabulary →
      (∀ token id, vocabulary.idOf? token = some id ↔ (fileLines text)[id]? = some token) ∧
      vocabulary.save = .ok (Text.unlines (fileLines text)) ∧
      vocabulary.save = .ok (Text.normalised text)) ∧
    ∀ e, parse text = .error e ↔ ∃ n fault, e = .vocabulary (n + 1) fault ∧
      LineFault (fileLines text) n fault ∧ FaultlessBefore (fileLines text) n := by
  refine ⟨exists_parse_iff.trans faultless_iff, fun vocabulary h => ?_, fun e => parse_eq_error_iff⟩
  have hlists : vocabulary.Enumerates (fileLines text) := .of_eq (parse_eq_ok_iff.mp h).2.2
  refine ⟨fun token id => hlists.idOf?_eq_some_iff, hlists.save, ?_⟩
  rw [hlists.save, Text.unlines_fileLines]

/-- Carriage returns, an empty line and no line feed at the end; and a line that stands
again before a line with a blank. -/
theorem parse_by_lines_carriage :
    (∃ vocabulary, parse "if\r\n\r\n(" = .ok vocabulary ∧ vocabulary.idOf? "" = some 1 ∧
      vocabulary.save = .ok "if\n\n(\n") ∧
    parse "(\nif\nx\nif\na b" = .error (.vocabulary 4 (.repeatedToken "if" 2)) := by
  have hok : fileLines "if\r\n\r\n(" = ["if", "", "("] := rfl
  have hno : fileLines "(\nif\nx\nif\na b" = ["(", "if", "x", "if", "a b"] := rfl
  obtain ⟨hparse, hread, -⟩ := parse_by_lines "if\r\n\r\n("
  obtain ⟨-, -, herror⟩ := parse_by_lines "(\nif\nx\nif\na b"
  rw [hok] at hparse hread
  rw [hno] at herror
  constructor
  · obtain ⟨vocabulary, h⟩ := hparse.mpr ⟨by decide, by decide⟩
    obtain ⟨hid, hsave, -⟩ := hread vocabulary h
    exact ⟨vocabulary, h, (hid "" 1).mpr rfl, hsave⟩
  · refine (herror _).mpr ⟨3, _, rfl, ⟨rfl, ⟨1, by decide, rfl⟩, rfl⟩, ?_⟩
    exact (faultlessBefore_iff ["(", "if", "x"] _).mpr ⟨by decide, by decide⟩

end Vocabulary

end TreeSeq
