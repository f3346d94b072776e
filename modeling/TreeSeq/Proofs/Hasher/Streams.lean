import TreeSeq.Proofs.Json.Numerals
import TreeSeq.Proofs.Text.Lines
import TreeSeq.Proofs.Vocabulary.Enumeration
import TreeSeq.TokenStream

/-!
# Token streams and the lines that they stand for

A stream is read back from its text (`TokenStream.parse_text`). A hasher comes down to
the tokens of its vocabulary in the order of their ids: a stream stands for the tokens at
its positions, with spaces between them (`Hasher.unhash_eq_ok_iff`), and for nothing if
there is no token at one of them (`Hasher.unhash_eq_error_iff`). Words and ids are taken
one by one up to the first that is no good (`Collects`).
-/

namespace TreeSeq

/-! ## Items taken one by one -/

section Collecting

variable {α β ε : Type}

/-- The items are taken in order, each for its value, up to the first that has none. What
was found before is kept with the latest first. -/
structure Collects (collect : List β → List α → Except ε (List β)) (value? : α → Option β)
    (fault : α → ε) : Prop where
  nil : ∀ found, collect found [] = .ok found.reverse
  taken : ∀ {item value}, value? item = some value → ∀ found rest,
    collect found (item :: rest) = collect (value :: found) rest
  refused : ∀ {item}, value? item = none → ∀ found rest,
    collect found (item :: rest) = .error (fault item)

namespace Collects

variable {collect : List β → List α → Except ε (List β)} {value? : α → Option β} {fault : α → ε}
  {items : List α} {found result : List β} {e : ε}

/-- Values are found just if each item has one. -/
theorem eq_ok_iff (h : Collects collect value? fault) :
    collect found items = .ok result ↔
      ∃ values, List.Forall₂ (fun item value => value? item = some value) items values ∧
        result = found.reverse ++ values := by
  induction items generalizing found with
  | nil => simp [h.nil, eq_comm]
  | cons item rest ih =>
    cases hi : value? item with
    | none => simp [h.refused hi, List.forall₂_cons_left_iff, hi]
    | some value =>
      simp only [h.taken hi, ih, List.forall₂_cons_left_iff, hi, Option.some.injEq]
      constructor
      · rintro ⟨values, hv, rfl⟩
        exact ⟨value :: values, ⟨value, values, rfl, hv, rfl⟩, by simp⟩
      · rintro ⟨_, ⟨_, values, rfl, hv, rfl⟩, rfl⟩
        exact ⟨values, hv, by simp⟩

theorem exists_ok_iff (h : Collects collect value? fault) :
    (∃ result, collect found items = .ok result) ↔ ∀ item ∈ items, (value? item).isSome := by
  induction items generalizing found with
  | nil => simp [h.nil]
  | cons item rest ih =>
    cases hi : value? item with
    | none => simp [h.refused hi, hi]
    | some value => simp [h.taken hi, ih, hi]

/-- The first item without a value is told. -/
theorem eq_error_iff (h : Collects collect value? fault) :
    collect found items = .error e ↔
      ∃ item, items.find? (fun item => (value? item).isNone) = some item ∧ e = fault item := by
  induction items generalizing found with
  | nil => simp [h.nil]
  | cons item rest ih =>
    cases hi : value? item with
    | none => simp [h.refused hi, List.find?_cons_of_pos, hi, eq_comm]
    | some value => rw [h.taken hi, ih, List.find?_cons_of_neg (by simp [hi])]

end Collects

end Collecting

/-! ## Streams as texts -/

namespace TokenStream

theorem toList_toString (n : Nat) : (toString n).toList = Nat.toDigits 10 n := by
  rw [Nat.toString_eq_repr, Nat.repr_eq_ofList_toDigits, String.toList_ofList]

theorem isDigit_of_mem_toString {n : Nat} {c : Char} (h : c ∈ (toString n).toList) :
    Text.isDigit c = true :=
  Json.isDigit_of_mem_toDigits (toList_toString n ▸ h)

theorem isBlank_of_isDigit {c : Char} (h : Text.isDigit c = true) : Text.isBlank c = false := by
  rw [Text.isDigit, Bool.and_eq_true, decide_eq_true_eq, decide_eq_true_eq] at h
  have hlow : 48 ≤ c.toNat := h.1
  have hhigh : c.toNat ≤ 57 := h.2
  simp [Text.isBlank]
  omega

theorem anyBlank_toString (n : Nat) : Text.anyBlank (toString n) = false :=
  Text.anyBlank_eq_false_iff.mpr fun _ hc => isBlank_of_isDigit (isDigit_of_mem_toString hc)

/-- Numbers with spaces between them make up a line. -/
theorem isLine_text (stream : TokenStream) : Text.IsLine stream.text := by
  refine Text.isLine_intercalate fun piece hp => ?_
  obtain ⟨n, -, rfl⟩ := List.mem_map.mp hp
  exact anyBlank_toString n

/-- A number below the limit is read back from its digits. -/
theorem readBelow?_toString {n limit : Nat} (h : n < limit) :
    Text.readBelow? limit (toString n) = some n := by
  have hd : ∀ c ∈ Nat.toDigits 10 n, Text.isDigit c = true := fun c =>
    Json.isDigit_of_mem_toDigits
  have hplus : ∀ rest, Nat.toDigits 10 n ≠ '+' :: rest := fun rest he =>
    absurd (hd '+' (he ▸ List.mem_cons_self)) (by decide)
  have hne : (Nat.toDigits 10 n).isEmpty = false := by simp
  have hr : Text.readDigits? (Nat.toDigits 10 n) = some n := by
    rw [Text.readDigits?, if_neg (by simp [hne]; exact hd), Json.digitsValue_toDigits]
  rw [Text.readBelow?, toList_toString]
  split
  · rename_i rest he
    exact absurd he (hplus rest)
  · rw [hr, Option.filter_some, if_pos (by simpa using h)]

theorem words_text (stream : TokenStream) : Text.words stream.text = stream.map toString := by
  rw [text, Text.words_intercalate, List.filter_eq_self]
  · intro piece hp
    obtain ⟨n, -, rfl⟩ := List.mem_map.mp hp
    simp
  · intro piece hp
    obtain ⟨n, -, rfl⟩ := List.mem_map.mp hp
    exact anyBlank_toString n

theorem collects_ofWords : Collects ofWords (Text.readBelow? idLimit) Error.tokenStream where
  nil _ := rfl
  taken h _ _ := by rw [ofWords, h]
  refused h _ _ := by rw [ofWords, h]

/-- A line is read just if each of its words is. -/
theorem parse_eq_ok_iff {line : String} {stream : TokenStream} :
    parse line = .ok stream ↔ List.Forall₂ (fun word id => Text.readBelow? idLimit word = some id)
      (Text.words line) stream := by
  rw [parse, collects_ofWords.eq_ok_iff]
  simp only [List.reverse_nil, List.nil_append, exists_eq_right']

/-- The first word that is not read is told. -/
theorem parse_eq_error_iff {line : String} {e : Error} :
    parse line = .error e ↔ ∃ word, (Text.words line).find?
      (fun word => (Text.readBelow? idLimit word).isNone) = some word ∧ e = .tokenStream word :=
  collects_ofWords.eq_error_iff

/-- A stream of ids that have 32 bits is read back from its text. -/
theorem parse_text {stream : TokenStream} (h : ∀ id ∈ stream, id < idLimit) :
    parse stream.text = .ok stream := by
  rw [parse_eq_ok_iff, words_text, List.forall₂_map_left_iff, List.forall₂_same]
  exact fun id hid => readBelow?_toString (h id hid)

end TokenStream

/-! ## Hashers -/

namespace Hasher

variable {hasher : Hasher} {tokens : List String}

/-- There is one hasher for a vocabulary at most. -/
theorem ofVocabulary_eq_ok_iff {vocabulary : Vocabulary} :
    ofVocabulary vocabulary = .ok hasher ↔ hasher.vocabulary = vocabulary := by
  rw [ofVocabulary]
  constructor
  · intro h
    split at h
    · cases h
      rfl
    · cases h
  · rintro rfl
    obtain ⟨vocabulary, inverse, hi⟩ := hasher
    split
    · rename_i other ho
      obtain rfl : inverse = other := Except.ok.inj (hi.symm.trans ho)
      rfl
    · rename_i e he
      exact absurd (hi.symm.trans he) (by simp)

theorem exists_enumerates (hasher : Hasher) : ∃ tokens, hasher.vocabulary.Enumerates tokens :=
  (Vocabulary.exists_enumerates hasher.inverts).imp fun _ h => h.1

theorem collects_tokens (hasher : Hasher) :
    Collects hasher.tokens hasher.inverse.tokenOf? Error.unknownId where
  nil _ := rfl
  taken h _ _ := by rw [Hasher.tokens, h]
  refused h _ _ := by rw [Hasher.tokens, h]

/-- The text of a stream joins the tokens at its positions. -/
theorem unhash_eq_ok_iff (ht : hasher.vocabulary.Enumerates tokens) {stream : TokenStream}
    {text : String} :
    hasher.unhash stream = .ok text ↔
      ∃ found, List.Forall₂ (fun id token => tokens[id]? = some token) stream found ∧
        text = " ".intercalate found := by
  have hf : ∀ result, hasher.tokens [] stream = .ok result ↔ _ := fun _ =>
    hasher.collects_tokens.eq_ok_iff
  simp only [ht.tokenOf? hasher.inverts, List.reverse_nil, List.nil_append, exists_eq_right'] at hf
  rw [unhash]
  simp only [← hf]
  cases hasher.tokens [] stream <;> simp [eq_comm]

/-- The first position at which there is no token is told. -/
theorem unhash_eq_error_iff (ht : hasher.vocabulary.Enumerates tokens) {stream : TokenStream}
    {e : Error} :
    hasher.unhash stream = .error e ↔
      ∃ id, stream.find? (tokens.length ≤ ·) = some id ∧ e = .unknownId id := by
  have hp : (fun id => (hasher.inverse.tokenOf? id).isNone) =
      fun id => decide (tokens.length ≤ id) := by
    funext id
    rw [ht.tokenOf? hasher.inverts, Bool.eq_iff_iff, Option.isNone_iff_eq_none,
      List.getElem?_eq_none_iff, decide_eq_true_iff]
  have hf : hasher.tokens [] stream = .error e ↔ _ := hasher.collects_tokens.eq_error_iff
  rw [← hp, ← hf, unhash]
  cases hasher.tokens [] stream <;> simp

end Hasher

end TreeSeq
