/-!
Sets of characters, as the tables of the Unicode standard list them: closed ranges of
code points in increasing order.
-/

namespace GoSplit.Text

/-- The first and the last code point of each range. -/
abbrev CodePoints := List (Nat × Nat)

def CodePoints.has (ranges : CodePoints) (c : Char) : Bool :=
  ranges.any fun range => range.1 ≤ c.toNat && c.toNat ≤ range.2

end GoSplit.Text
