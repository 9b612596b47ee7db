import UiTemplate.Text.Letter
import UiTemplate.Text.Extender

/-!
# Word characters and identifiers

Two classes built from letters and extenders. A *word character* is what a loop alias may go on
with; an *identifier character* is what a name in a script is made of.
-/

namespace UiTemplate.Text

/-- The circled and squared letters, which are alphabetic without being letters. -/
def enclosedLetters : Ranges :=
  [(0x24B6, 0x24E9), (0x1F130, 0x1F149), (0x1F150, 0x1F169), (0x1F170, 0x1F189)]

/-- A word character: alphabetic, a mark, a decimal digit, a connector or a zero-width joiner. -/
def isWord (c : Char) : Bool :=
  isLetter c || isExtender c || isEnclosingMark c || c.toNat == 0x200C || c.toNat == 0x200D ||
    enclosedLetters.contains c.toNat

/-- A character that can begin an identifier. -/
def isIdentStart (c : Char) : Bool :=
  c == '$' || c == '_' || (isLetter c && c.toNat != 0x2E2F) ||
    Ranges.contains [(0x1885, 0x1886), (0x2118, 0x2118), (0x212E, 0x212E), (0x309B, 0x309C)] c.toNat

/-- A character that can continue an identifier. -/
def isIdentPart (c : Char) : Bool :=
  isIdentStart c || isExtender c ||
    Ranges.contains [(0xB7, 0xB7), (0x387, 0x387), (0x1369, 0x1371), (0x19DA, 0x19DA),
      (0x200C, 0x200D), (0x30FB, 0x30FB), (0xFF65, 0xFF65)] c.toNat

end UiTemplate.Text
