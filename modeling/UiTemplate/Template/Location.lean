import UiTemplate.Decimal.Natural
import UiTemplate.Text.Bytes

/-!
# Places in a template

A location is a place in the text of a template, a path a place in its tree.
-/

namespace UiTemplate

open Decimal

/-- A place in the text: line and column are counted from one, in characters, the offset in bytes
from zero. All three are zero where there is no place. -/
structure Location where
  line : Nat := 0
  column : Nat := 0
  offset : Nat := 0
  deriving DecidableEq, Repr, Inhabited

namespace Location

/-- The location of the byte `offset` of a text. -/
def locate (source : List Char) (offset : Nat) : Location :=
  let before := (Text.splitBytes offset source).1
  { line := before.count '\n' + 1
    column := (before.reverse.takeWhile (· ≠ '\n')).length + 1
    offset := offset }

/-- How a location is shown. -/
def display (l : Location) : String :=
  natText l.line ++ ":" ++ natText l.column

end Location

/-- Where the lines of a text begin, in bytes and in ascending order. -/
structure LineTable where
  starts : List Nat

namespace LineTable

/-- The places behind the line breaks of a text that begins at the byte `start`. -/
def breaks (start : Nat) : List Char → List Nat
  | [] => []
  | c :: cs =>
    let more := breaks (start + c.utf8Size) cs
    if c = '\n' then (start + 1) :: more else more

/-- The lines of a text. -/
def ofText (source : List Char) : LineTable :=
  ⟨0 :: breaks 0 source⟩

/-- The location of a byte of the text, or of the end if the text is shorter. Its line is the last
one that does not begin behind it. -/
def locate (lines : LineTable) (source : List Char) (offset : Nat) : Location :=
  let offset := min offset (Text.byteLength source)
  let line := (lines.starts.takeWhile (· ≤ offset)).length
  let start := lines.starts.getD (line - 1) 0
  { line := line
    column := ((Text.slice? start offset source).map List.length).getD 0 + 1
    offset := offset }

theorem length_breaks (start : Nat) (cs : List Char) : (breaks start cs).length = cs.count '\n' := by
  induction cs generalizing start with
  | nil => rfl
  | cons c cs ih =>
    rw [breaks, List.count_cons]
    by_cases hc : c = '\n'
    · simp [hc, ih]
    · simp [hc, ih]

end LineTable

/-- The child indices from the root to a node. A branch of a chain is one step and its node another
one. -/
abbrev Path := List Nat

namespace Path

/-- The path to a child. -/
def child (path : Path) (index : Nat) : Path :=
  path ++ [index]

/-- How a path is shown. -/
def display (path : Path) : String :=
  "/" ++ "/".intercalate (path.map natText)

end Path

end UiTemplate
