/-!
# Sets of code points as ranges

A `Ranges` holds closed ranges of code points in ascending order. Membership
is a binary search.
-/

namespace TreeSeq.Text

/-- Closed ranges of code points, ascending and apart. -/
structure Ranges where
  ranges : Array (Nat × Nat)

namespace Ranges

/-- A table written in blocks. -/
def ofBlocks (blocks : List (List (Nat × Nat))) : Ranges :=
  ⟨blocks.flatten.toArray⟩

/-- Does one of the ranges `low`, …, `high - 1` of the table hold `n`? -/
def search (table : Array (Nat × Nat)) (n low high : Nat) : Bool :=
  if h : low < high then
    let middle := (low + high) / 2
    let range := table.getD middle (0, 0)
    if n < range.1 then search table n low middle
    else if range.2 < n then search table n (middle + 1) high
    else true
  else
    false
termination_by high - low
decreasing_by all_goals omega

/-- Is the code point in one of the ranges? -/
def contains (table : Ranges) (n : Nat) : Bool :=
  search table.ranges n 0 table.ranges.size

end Ranges

end TreeSeq.Text
