import UiTemplate.Decimal.Reading
import UiTemplate.Json.Quoted

/-!
# Escapes in literals

The text of a string or of a chunk of a template literal is read as units, because a text has no
character for a surrogate without its partner. `textOfUnits` writes such a surrogate as the
replacement character and four digits, and then also a replacement character of the text itself, so
that the two can be told apart.
-/

namespace UiTemplate.Script

/-- The value of a hexadecimal digit. -/
def hexDigit? (c : Char) : Option Nat :=
  if '0' ≤ c && c ≤ '9' then some (c.toNat - 48)
  else if 'a' ≤ c && c ≤ 'f' then some (c.toNat - 87)
  else if 'A' ≤ c && c ≤ 'F' then some (c.toNat - 55)
  else none

/-- A character that ends a line. -/
def isLineEnd (c : Char) : Bool :=
  c == '\n' || c == '\r' || c.toNat == 0x2028 || c.toNat == 0x2029

/-! ## Codes -/

/-- The first half of a pair that stands for one character. -/
def isHighSurrogate (n : Nat) : Bool :=
  0xD800 ≤ n && n < 0xDC00

/-- The second half of a pair that stands for one character. -/
def isLowSurrogate (n : Nat) : Bool :=
  0xDC00 ≤ n && n < 0xE000

/-- Half of a pair, which is no character by itself. -/
def isSurrogate (n : Nat) : Bool :=
  isHighSurrogate n || isLowSurrogate n

/-- The code that a pair stands for. -/
def joinSurrogates (high low : Nat) : Nat :=
  0x10000 + (high - 0xD800) * 1024 + (low - 0xDC00)

/-- A code of four digits at the start of a text, and the text after it. -/
def fourDigits? : List Char → Option (Nat × List Char)
  | a :: b :: c :: d :: rest => do
    let a ← hexDigit? a
    let b ← hexDigit? b
    let c ← hexDigit? c
    let d ← hexDigit? d
    some (a * 4096 + b * 256 + c * 16 + d, rest)
  | _ => none

/-- The code of a Unicode escape, from the text after its `u`: four digits, or digits in braces. -/
def codeEscape? (cs : List Char) : Option (Nat × Nat × List Char) :=
  match cs with
  | '\x7b' :: cs =>
    let digits := cs.takeWhile fun c => (hexDigit? c).isSome
    match cs.drop digits.length with
    | '\x7d' :: rest =>
      let n := Decimal.ofDigits 16 (digits.filterMap hexDigit?)
      if digits.isEmpty || 0x10FFFF < n then none else some (n, digits.length + 2, rest)
    | _ => none
  | _ => (fourDigits? cs).map fun (n, rest) => (n, 4, rest)

/-- The code of two Unicode escapes of four digits that make a pair, from the text after the first
`u`. -/
def pairEscape? (cs : List Char) : Option (Nat × List Char) := do
  let (high, rest) ← fourDigits? cs
  match rest with
  | '\\' :: 'u' :: rest =>
    let (low, rest) ← fourDigits? rest
    if isHighSurrogate high && isLowSurrogate low then some (joinSurrogates high low, rest)
    else none
  | _ => none

/-! ## Units -/

/-- A unit of the text of a literal. -/
inductive TextUnit where
  | char (c : Char)
  /-- A character behind a backslash that has no other effect. -/
  | bare (c : Char)
  /-- A surrogate without its partner. -/
  | surrogate (code : Nat)
  deriving DecidableEq, Repr

/-- The unit that a code is. -/
def TextUnit.ofCode (n : Nat) : TextUnit :=
  if isSurrogate n then .surrogate n else .char (Char.ofNat n)

/-- Whether the unit is a surrogate. -/
def TextUnit.isSurrogate : TextUnit → Bool
  | .surrogate _ => true
  | _ => false

/-- The octal digits at the start of a text, at most `n`. -/
def octalRun : Nat → List Char → List Nat
  | 0, _ => []
  | n + 1, c :: cs => if '0' ≤ c && c ≤ '7' then (c.toNat - 48) :: octalRun n cs else []
  | _, [] => []

/-- The units an escape stands for, from the text after its backslash. An escaped line end stands
for nothing. Octal escapes are for strings only; a template literal knows none but `\0`. -/
def escape? (octal : Bool) : List Char → Option (List TextUnit × Nat × List Char)
  | '\r' :: '\n' :: rest => some ([], 2, rest)
  | 'n' :: rest => some ([.char '\n'], 1, rest)
  | 't' :: rest => some ([.char '\t'], 1, rest)
  | 'r' :: rest => some ([.char '\r'], 1, rest)
  | 'b' :: rest => some ([.char '\x08'], 1, rest)
  | 'f' :: rest => some ([.char '\x0c'], 1, rest)
  | 'v' :: rest => some ([.char '\x0b'], 1, rest)
  | 'x' :: a :: b :: rest => do
    let a ← hexDigit? a
    let b ← hexDigit? b
    some ([.ofCode (a * 16 + b)], 3, rest)
  | 'x' :: _ => none
  | 'u' :: rest =>
    match pairEscape? rest with
    | some (code, rest) => some ([.ofCode code], 11, rest)
    | none => (codeEscape? rest).map fun (code, width, rest) => ([.ofCode code], width + 1, rest)
  | c :: rest =>
    if c.isDigit then
      if octal then
        let digits := octalRun (if c ≤ '3' then 3 else 2) (c :: rest)
        if digits.isEmpty then some ([.bare c], 1, rest)
        else
          some ([.ofCode (Decimal.ofDigits 8 digits)], digits.length,
            (c :: rest).drop digits.length)
      else if c == '0' && !(rest.head?.any Char.isDigit) then some ([.ofCode 0], 1, rest)
      else none
    else if isLineEnd c then some ([], c.utf8Size, rest)
    else some ([.bare c], c.utf8Size, rest)
  | [] => none

/-! ## Texts -/

/-- The replacement character. -/
def replacement : Char :=
  Char.ofNat 0xFFFD

/-- A code as the replacement character and four hexadecimal digits. -/
def marked (n : Nat) : List Char :=
  replacement :: (Json.unicodeEscape n).drop 2

/-- The text of units among which is a surrogate; `after` says that the first one lies behind. A
bare replacement character stays as it is behind the first surrogate. -/
def markedText (after : Bool) : List TextUnit → List Char
  | [] => []
  | .surrogate n :: rest => marked n ++ markedText true rest
  | .char c :: rest => (if c == replacement then marked c.toNat else [c]) ++ markedText after rest
  | .bare c :: rest =>
    (if c == replacement && !after then marked c.toNat else [c]) ++ markedText after rest

/-- The text of units without a surrogate. -/
def plainText : List TextUnit → List Char
  | [] => []
  | .char c :: rest => c :: plainText rest
  | .bare c :: rest => c :: plainText rest
  | .surrogate _ :: rest => plainText rest

/-- The text of units. -/
def textOfUnits (units : List TextUnit) : List Char :=
  if units.any TextUnit.isSurrogate then markedText false units else plainText units

theorem plainText_map_char (cs : List Char) : plainText (cs.map .char) = cs := by
  induction cs with
  | nil => rfl
  | cons c cs ih => simp [plainText, ih]

/-- A text without escapes stands for itself. -/
theorem textOfUnits_map_char (cs : List Char) : textOfUnits (cs.map .char) = cs := by
  have h : (cs.map TextUnit.char).any TextUnit.isSurrogate = false := by
    rw [List.any_map, List.any_eq_false]
    intro c _
    simp [TextUnit.isSurrogate]
  rw [textOfUnits, h, if_neg (by decide), plainText_map_char]

end UiTemplate.Script
