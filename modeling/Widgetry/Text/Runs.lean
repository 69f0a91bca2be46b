/-!
# Sets of code points as runs

A list of lengths cuts the code points, from zero on, into runs that lie by turns outside and inside
the set.
-/

namespace Widgetry.Text

/-- Whether a code point lies in the set that the runs stand for. -/
def inRuns : List Nat → Nat → Bool
  | [], _ => false
  | length :: rest, n => if n < length then false else !inRuns rest (n - length)

end Widgetry.Text
