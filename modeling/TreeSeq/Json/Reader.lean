import TreeSeq.Json.Fault
import TreeSeq.Text.Document

/-!
# Readers of JSON documents

A `Reader` takes symbols from the front of a document and yields a value, or
stops at the first fault. Repetition goes through `Reader.loop` alone: each
step of a loop takes at least one symbol, so the length of the document, which
every reader is given, bounds the number of steps.
-/

namespace TreeSeq.Json

/-- Reads from the front of a document, given the length of the whole
document. -/
abbrev Reader (α : Type) := ReaderT Nat (StateT Document (Except Fault)) α

namespace Reader

variable {σ α : Type}

/-- Stops with a fault. -/
def fail (fault : Fault) : Reader α :=
  throw fault

/-- The first `count` steps of a loop. -/
def steps (step : σ → Reader (σ ⊕ α)) : (count : Nat) → σ → Reader α
  | 0, _ => fail .illFormed
  | count + 1, state => do
    match ← step state with
    | .inr result => return result
    | .inl state => steps step count state

/-- Repeats `step` until it yields a result. Each step must take a symbol. -/
def loop (step : σ → Reader (σ ⊕ α)) (start : σ) : Reader α := do
  steps step ((← read) + 1) start

/-- The next symbol, left in place. -/
def peek : Reader (Option Symbol) :=
  return (← get).head?

/-- Takes one symbol. -/
def skip : Reader Unit :=
  modify List.tail

/-- Takes the next symbol. -/
def next : Reader (Option Symbol) := do
  let symbol ← peek
  skip
  return symbol

/-- The blanks of JSON. -/
def isBlank : Symbol → Bool
  | .char ' ' | .char '\t' | .char '\n' | .char '\r' => true
  | _ => false

/-- The next symbol that is not blank, left in place. -/
def token : Reader (Option Symbol) := do
  modify (·.dropWhile isBlank)
  peek

/-- Takes the character `c`, blanks before it not counting. -/
def expect (c : Char) : Reader Unit := do
  match ← token with
  | some (.char found) => if found == c then skip else fail .illFormed
  | some .stray => fail .illFormed
  | none => fail .truncated

/-- Takes the characters of a word. -/
def word : List Char → Reader Unit
  | [] => pure ()
  | c :: rest => do
    match ← next with
    | some (.char found) => if found == c then word rest else fail .illFormed
    | some .stray => fail .illFormed
    | none => fail .truncated

/-- After an entry of a container: takes the comma or the closing bracket, and
tells whether it was the bracket. -/
def closes (bracket : Char) : Reader Bool := do
  match ← token with
  | some (.char ',') => skip; return false
  | some (.char c) => if c == bracket then skip; return true else fail .illFormed
  | some .stray => fail .illFormed
  | none => fail .truncated

/-- The entries of a container up to its closing bracket, the opening one being
taken already. -/
def entries (bracket : Char) (entry : σ → Reader σ) (start : σ) : Reader σ := do
  match ← token with
  | none => fail .truncated
  | some symbol =>
    if symbol == .char bracket then
      skip
      return start
    else
      loop (fun state => do
        let state ← entry state
        return if ← closes bracket then .inr state else .inl state) start

/-- Reads a whole document, which may end in blanks. -/
def document (reader : Reader α) (document : Document) : Except Fault α := do
  let (value, rest) ← (reader.run document.length).run document
  if rest.all isBlank then return value else throw .illFormed

end Reader

end TreeSeq.Json
