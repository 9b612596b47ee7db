/-!
# Blank characters

The white space of Unicode (the 25 characters with the property `White_Space`), and texts without
the blanks at their ends.
-/

namespace UiTemplate.Text

/-- A character with the property `White_Space`. The zero-width no-break space is not one. -/
def isBlank (c : Char) : Bool :=
  let n := c.toNat
  (0x09 ≤ n && n ≤ 0x0D) || n == 0x20 || n == 0x85 || n == 0xA0 || n == 0x1680 ||
    (0x2000 ≤ n && n ≤ 0x200A) || n == 0x2028 || n == 0x2029 || n == 0x202F || n == 0x205F ||
    n == 0x3000

/-- The text from its first character that is not blank. -/
def trimLeft (cs : List Char) : List Char :=
  cs.dropWhile isBlank

/-- The text up to its last character that is not blank. -/
def trimRight (cs : List Char) : List Char :=
  (trimLeft cs.reverse).reverse

/-- The text without the blanks at both ends. -/
def trim (cs : List Char) : List Char :=
  trimRight (trimLeft cs)

/-- A text of blanks only, the empty text included. -/
def allBlank (cs : List Char) : Bool :=
  cs.all isBlank

end UiTemplate.Text
