/-!
# Ranges of code points

A character class as a list of closed ranges of code points, in ascending order.
-/

namespace UiTemplate.Text

/-- Closed ranges of code points, in ascending order and without overlap. -/
abbrev Ranges := List (Nat × Nat)

/-- Whether one of the ranges holds the code point. The ranges ascend, so the search ends at the
first one that lies beyond it. -/
def Ranges.contains : Ranges → Nat → Bool
  | [], _ => false
  | (first, last) :: rest, n =>
    if n < first then false
    else if n ≤ last then true
    else Ranges.contains rest n

end UiTemplate.Text
