/-!
# Scanning TOML

A `Scanner` takes characters from the front of a text and yields a value, or
refuses the text. Repetition goes through `Scanner.loop` alone: each step of a
loop takes at least one character, so the length of the text bounds the number
of steps.
-/

namespace TreeSeq.Toml

/-- Takes characters from the front of a text, or refuses it. -/
abbrev Scanner (α : Type) := StateT (List Char) Option α

/-- May the character stand for itself in a string or a comment? -/
def isPlain (c : Char) : Bool :=
  c == '\t' || (0x20 ≤ c.toNat && c.toNat != 0x7F)

namespace Scanner

variable {σ α : Type}

/-- Refuses the text. -/
def refuse : Scanner α :=
  fun _ => none

/-- Yields a value that there may not be. -/
def ofOption (value : Option α) : Scanner α :=
  fun rest => value.map (·, rest)

/-- Requires a condition. -/
def check (condition : Bool) : Scanner Unit :=
  if condition then pure () else refuse

/-- The first `count` steps of a loop. -/
def steps (step : σ → Scanner (σ ⊕ α)) : (count : Nat) → σ → Scanner α
  | 0, _ => refuse
  | count + 1, state => do
    match ← step state with
    | .inr result => return result
    | .inl state => steps step count state

/-- Repeats `step` until it yields a result. Each step that does not must take
a character. -/
def loop (step : σ → Scanner (σ ⊕ α)) (start : σ) : Scanner α := do
  steps step ((← get).length + 1) start

/-- The next character, left in place. -/
def peek : Scanner (Option Char) :=
  return (← get).head?

/-- Takes the next character. -/
def next : Scanner Char := do
  match ← get with
  | c :: rest => set rest; return c
  | [] => refuse

/-- Takes the characters that come next as long as they are of a class. -/
def takeWhile (among : Char → Bool) : Scanner (List Char) :=
  modifyGet (·.span among)

/-- Takes these characters if they come next. -/
def optionally (wanted : List Char) : Scanner Bool := do
  let rest ← get
  if wanted.isPrefixOf rest then
    set (rest.drop wanted.length)
    return true
  else
    return false

/-- Takes these characters, which must come next. -/
def exactly (wanted : List Char) : Scanner Unit := do
  check (← optionally wanted)

/-- Takes a line break if it comes next. -/
def lineBreak : Scanner Bool :=
  optionally ['\n'] <||> optionally ['\r', '\n']

/-- Takes spaces and tabs. -/
def spaces : Scanner Unit :=
  discard (takeWhile fun c => c == ' ' || c == '\t')

/-- Takes a comment if one comes next. -/
def comment : Scanner Unit := do
  if ← optionally ['#'] then
    discard (takeWhile isPlain)

/-- Takes what may come after the last value of a line, with the end of the
line. -/
def lineEnd : Scanner Unit := do
  spaces
  comment
  check ((← lineBreak) || (← get).isEmpty)

/-- Takes spaces, comments and line breaks. -/
def gap : Scanner Unit :=
  loop (fun () => do
    spaces
    comment
    return if ← lineBreak then .inl () else .inr ()) ()

end Scanner

end TreeSeq.Toml
