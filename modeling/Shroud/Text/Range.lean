/-!
# Classes of characters

A class of characters is a list of closed ranges of code points, ascending and apart. The larger classes
follow version 14 of the character database.
-/

namespace Shroud.Text

/-- The code point lies in one of the ranges. -/
def inRanges (ranges : List (Nat × Nat)) (n : Nat) : Bool :=
  ranges.any fun r => r.1 ≤ n && n ≤ r.2

end Shroud.Text
