/-!
# Classes of characters given by ranges of code points

A class that a standard defines by listing code points is kept as its list of ranges, in ascending
order and with both ends included.
-/

namespace Quadword.Text

/-- A run of code points, both ends included. -/
abbrev CodeRange := Nat × Nat

/-- Whether a character's code point lies in one of the ranges. -/
def within (ranges : List CodeRange) (c : Char) : Bool :=
  ranges.any fun r => r.1 ≤ c.toNat && c.toNat ≤ r.2

end Quadword.Text
