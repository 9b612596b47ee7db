import UiTemplate.Template.Node

/-!
# Keys

Bound values have short keys: the texts over `a`–`z` by length, then alphabetically, without those
that are words of the language emitted code is in. `Key.number n` is the key with `n` keys before
it.

The texts are numbered by `Key.spelling`; `Key.position` is its inverse.
-/

namespace UiTemplate.Key

/-- The letter of a number below 26. -/
def letter (n : Nat) : Char :=
  Char.ofNat ('a'.toNat + n)

/-- The text with `n` texts before it. -/
def spelling (n : Nat) : List Char :=
  if n < 26 then [letter n] else spelling (n / 26 - 1) ++ [letter (n % 26)]
termination_by n
decreasing_by omega

/-- How many texts stand before a text. -/
def position (cs : List Char) : Nat :=
  cs.foldl (fun n c => 26 * n + (c.toNat - 'a'.toNat + 1)) 0 - 1

/-- The words that are no keys, in the order of the texts. -/
def reserved : List String :=
  ["do", "if", "in", "for", "let", "new", "try", "var"]

/-- The number of a text with `n` texts that are not reserved before it. Each reserved text that
stands before it moves it one further. -/
def skipReserved (n : Nat) : Nat :=
  (reserved.map fun s => position s.toList).foldl (fun i r => if r ≤ i then i + 1 else i) n

/-- The key with `n` keys before it. -/
def number (n : Nat) : Key :=
  String.ofList (spelling (skipReserved n))

end UiTemplate.Key
