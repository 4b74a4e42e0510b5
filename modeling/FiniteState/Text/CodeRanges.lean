/-!
# Ranges of code points

A property of characters, as the ascending list of the closed ranges of
code points that have it.
-/

namespace FiniteState

/-- Closed ranges of code points, ascending and apart from each other. -/
abbrev CodeRanges := List (Nat × Nat)

namespace CodeRanges

/-- Whether a character lies in one of the ranges. -/
def contains (r : CodeRanges) (c : Char) : Bool :=
  r.any fun (lo, hi) => lo ≤ c.toNat && c.toNat ≤ hi

end CodeRanges

end FiniteState
