/-!
# TOML values
-/

namespace TreeSeq.Toml

/-- A TOML value. -/
inductive Value where
  | text (s : String)
  /-- A whole number from `-2^63` up to `2^63 - 1`. -/
  | integer (n : Int)
  | real (x : Float)
  | bool (b : Bool)
  /-- A date, a time, or both, as it is written. -/
  | moment (written : String)
  | array (items : List Value)
  /-- Values under distinct names. -/
  | table (fields : List (String × Value))
  deriving Inhabited

end TreeSeq.Toml
