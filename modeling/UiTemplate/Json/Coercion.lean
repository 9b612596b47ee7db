import UiTemplate.Decimal.Reading
import UiTemplate.Json.Printer
import UiTemplate.Text.Blank

/-!
# Coercions

How a rendering value is taken as a truth value, a number or a text, and how the number an operator
computes becomes a value again.
-/

namespace UiTemplate.Json

open Decimal

/-- An integer clamped to the range of signed 64-bit words. -/
def clampWord (n : Int) : Int :=
  max (-0x8000000000000000) (min n 0x7FFFFFFFFFFFFFFF)

/-- The text of a number. It never has an exponent; integers below `10 ^ 21` are clamped to the
range of signed 64-bit words. -/
def numberText (x : Float) : String :=
  match Parts.ofFloat x with
  | .nan => "NaN"
  | .infinite negative => if negative then "-Infinity" else "Infinity"
  | .finite negative mantissa exponent =>
    let plain := (if negative then "-" else "") ++ (shortest mantissa exponent).positional
    match (Parts.finite negative mantissa exponent).whole? with
    | some n => if n.natAbs < 1000000000000000000000 then intText (clampWord n) else plain
    | none => plain

/-- The value of a computed number: an integer if it is one and below `2 ^ 53`, `null` if it is not
finite. -/
def ofNumber (x : Float) : Json :=
  let parts := Parts.ofFloat x
  match parts.whole? with
  | some n => if n.natAbs < 0x20000000000000 then .int n else .float x
  | none => if parts.isFinite then .float x else .null

/-- Whether a value counts as true. -/
def isTruthy : Json → Bool
  | .null => false
  | .bool b => b
  | .int n => n != 0
  | .float x => x != 0 && x == x
  | .str s => s != ""
  | .arr _ => true
  | .obj _ => true

/-- The number a text spells; blanks around it do not count, and nothing spells zero. -/
def textNumber (s : String) : Float :=
  match Text.trim s.toList with
  | [] => 0
  | cs => (readFloat? cs).getD notANumber

/-- A value as a number. An array of one item is that item. -/
def toNumber : Json → Float
  | .null => 0
  | .bool b => if b then 1 else 0
  | .int n => Float.ofInt n
  | .float x => x
  | .str s => textNumber s
  | .arr [] => 0
  | .arr [v] => toNumber v
  | .arr _ => notANumber
  | .obj _ => notANumber

/-- The text of an integer, which is taken as a double; below `2 ^ 53` this changes nothing. -/
def integerText (n : Int) : String :=
  if n.natAbs < 0x20000000000000 then intText n else numberText (Float.ofInt n)

mutual

/-- A value as a text. The items of an array are joined by commas, and `null` among them is
empty. -/
def toText : Json → String
  | .null => "null"
  | .bool b => if b then "true" else "false"
  | .int n => integerText n
  | .float x => numberText x
  | .str s => s
  | .arr items => ",".intercalate (itemTexts items)
  | .obj _ => "[object Object]"

/-- The texts of the items of an array. -/
def itemTexts : List Json → List String
  | [] => []
  | v :: rest => (if v.isNull then "" else toText v) :: itemTexts rest

end

/-- A value as it is shown: `null` is empty, arrays and objects are indented JSON. -/
def display : Json → String
  | .null => ""
  | .str s => s
  | .arr items => pretty 0 (.arr items)
  | .obj entries => pretty 0 (.obj entries)
  | v => toText v

end UiTemplate.Json
