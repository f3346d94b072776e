import TreeSeq.Json.Reader

/-!
# What a reader takes

`Takes reader input a rest` says of a reader that it yields `a` from the front of
`input` and leaves `rest`, in a document of any length. Readers are put together,
and so are these statements: one lemma for each way to do it.

* `Takes.bind`, `Loops`: one reader after the other, and again and again;
* `takes_token`, `takes_expect`, `takes_closes`: blanks do not count;
* `document_eq_ok`: what is read from a whole document.
-/

namespace TreeSeq.Json.Reader

variable {α β σ : Type} {input mid rest : Document} {a : α} {b : β}

/-- The reader yields `a` from the front of `input` and leaves `rest`, whatever the
length of the document is. -/
def Takes (reader : Reader α) (input : Document) (a : α) (rest : Document) : Prop :=
  rest.length ≤ input.length ∧
    ∀ length, input.length ≤ length → (reader.run length).run input = .ok (a, rest)

theorem takes_pure (a : α) (input : Document) : Takes (pure a) input a input :=
  ⟨Nat.le_refl _, fun _ _ => rfl⟩

theorem Takes.bind {reader : Reader α} {next : α → Reader β} (h : Takes reader input a mid)
    (h' : Takes (next a) mid b rest) : Takes (reader >>= next) input b rest := by
  refine ⟨Nat.le_trans h'.1 h.1, fun length hl => ?_⟩
  rw [ReaderT.run_bind, StateT.run_bind, h.2 length hl]
  exact h'.2 length (Nat.le_trans h.1 hl)

/-! ## Symbols -/

theorem takes_peek (input : Document) : Takes peek input input.head? input :=
  ⟨Nat.le_refl _, fun _ _ => rfl⟩

theorem takes_get (input : Document) : Takes get input input input :=
  ⟨Nat.le_refl _, fun _ _ => rfl⟩

theorem takes_set (h : rest.length ≤ input.length) : Takes (set rest) input () rest :=
  ⟨h, fun _ _ => rfl⟩

theorem takes_modify {f : Document → Document} (h : (f input).length ≤ input.length) :
    Takes (modify f) input () (f input) :=
  ⟨h, fun _ _ => rfl⟩

theorem takes_skip (symbol : Symbol) (rest : Document) : Takes skip (symbol :: rest) () rest :=
  takes_modify (Nat.le_succ _)

theorem takes_next (symbol : Symbol) (rest : Document) :
    Takes next (symbol :: rest) (some symbol) rest :=
  ((takes_peek _).bind ((takes_skip _ _).bind (takes_pure _ _)))

theorem takes_word (characters : List Char) (rest : Document) :
    Takes (word characters) (characters.map .char ++ rest) () rest := by
  induction characters with
  | nil => exact takes_pure () rest
  | cons c characters ih =>
    refine (takes_next _ _).bind ?_
    simpa using ih

/-! ## Blanks -/

/-- Nothing but blanks. -/
def Blanks (symbols : Document) : Prop :=
  ∀ symbol ∈ symbols, isBlank symbol

theorem blanks_nil : Blanks [] := by
  simp [Blanks]

theorem dropWhile_blanks {blanks : Document} (hb : Blanks blanks) {symbol : Symbol}
    (hs : isBlank symbol = false) (rest : Document) :
    (blanks ++ symbol :: rest).dropWhile isBlank = symbol :: rest := by
  rw [List.dropWhile_append_of_pos hb, List.dropWhile_cons_of_neg (by simp [hs])]

variable {blanks : Document}

theorem takes_token (hb : Blanks blanks) {symbol : Symbol} (hs : isBlank symbol = false)
    (rest : Document) : Takes token (blanks ++ symbol :: rest) (some symbol) (symbol :: rest) := by
  have h : Takes (modify (·.dropWhile isBlank)) (blanks ++ symbol :: rest) () _ :=
    takes_modify (List.dropWhile_sublist _).length_le
  rw [dropWhile_blanks hb hs] at h
  exact h.bind (takes_peek _)

theorem takes_expect (hb : Blanks blanks) {c : Char} (hc : isBlank (.char c) = false)
    (rest : Document) : Takes (expect c) (blanks ++ .char c :: rest) () rest := by
  refine (takes_token hb hc rest).bind ?_
  simpa using takes_skip (.char c) rest

theorem takes_closes_comma (bracket : Char) (hb : Blanks blanks) (rest : Document) :
    Takes (closes bracket) (blanks ++ .char ',' :: rest) false rest :=
  (takes_token hb rfl rest).bind ((takes_skip _ _).bind (takes_pure _ _))

theorem takes_closes_bracket {bracket : Char} (hb : Blanks blanks)
    (hc : isBlank (.char bracket) = false) (hn : bracket ≠ ',') (rest : Document) :
    Takes (closes bracket) (blanks ++ .char bracket :: rest) true rest := by
  refine (takes_token hb hc rest).bind ?_
  have h : Takes (do skip; return true) (.char bracket :: rest) true rest :=
    (takes_skip _ _).bind (takes_pure _ _)
  simpa [hn] using h

/-! ## Loops -/

/-- Repeating `step` from a state on yields `a` from the front of the input, each
repetition but the last taking a symbol. -/
inductive Loops (step : σ → Reader (σ ⊕ α)) : σ → Document → α → Document → Prop where
  | done {state : σ} {input : Document} {a : α} {rest : Document}
      (h : Takes (step state) input (.inr a) rest) : Loops step state input a rest
  | more {state next : σ} {input mid : Document} {a : α} {rest : Document}
      (h : Takes (step state) input (.inl next) mid) (hl : mid.length < input.length)
      (hr : Loops step next mid a rest) : Loops step state input a rest

theorem Loops.takes_steps {step : σ → Reader (σ ⊕ α)} {state : σ}
    (h : Loops step state input a rest) {count : Nat} (hc : input.length < count) :
    Takes (steps step count state) input a rest := by
  induction h generalizing count with
  | done h =>
    obtain ⟨count, rfl⟩ := Nat.exists_eq_add_one.mpr (Nat.zero_lt_of_lt hc)
    exact h.bind (takes_pure _ _)
  | more h hl _ ih =>
    obtain ⟨count, rfl⟩ := Nat.exists_eq_add_one.mpr (Nat.zero_lt_of_lt hc)
    exact h.bind (ih (by omega))

/-- The length of the document is enough for the number of steps. -/
theorem Loops.takes {step : σ → Reader (σ ⊕ α)} {start : σ} (h : Loops step start input a rest) :
    Takes (loop step start) input a rest := by
  have hb := (h.takes_steps (Nat.lt_succ_self _)).1
  refine ⟨hb, fun length hl => ?_⟩
  exact (h.takes_steps (Nat.lt_succ_of_le hl)).2 length hl

/-! ## Whole documents -/

/-- Blanks may be left at the end of a document. -/
theorem document_eq_ok {reader : Reader α} (h : Takes reader input a rest) (hb : Blanks rest) :
    document reader input = .ok a := by
  rw [document, h.2 _ (Nat.le_refl _)]
  have hr : rest.all isBlank = true := List.all_eq_true.mpr hb
  exact if_pos hr

end TreeSeq.Json.Reader
