import UiTemplate.Decimal.Reading
import UiTemplate.Json.Basic

/-!
# Reading JSON

A reader for the JSON grammar. An object that is read keeps its entries as they are written,
repeated keys included, so that a caller can refuse a repetition; `Json.canonical` resolves them.

A number without point and exponent is an integer if it fits in 64 bits. Every other number is a
double: its leading digits, as many as fit in 64 bits, times a power of ten.
-/

namespace UiTemplate.Json

open Decimal

/-- The text after its leading white space. -/
def skipBlanks (cs : List Char) : List Char :=
  cs.dropWhile fun c => c == ' ' || c == '\t' || c == '\n' || c == '\r'

/-- The value of a hexadecimal digit. -/
def hexValue? (c : Char) : Option Nat :=
  if '0' ≤ c && c ≤ '9' then some (c.toNat - 48)
  else if 'a' ≤ c && c ≤ 'f' then some (c.toNat - 87)
  else if 'A' ≤ c && c ≤ 'F' then some (c.toNat - 55)
  else none

/-- The number of four hexadecimal digits, and the text after them. -/
def readHex4 : List Char → Option (Nat × List Char)
  | a :: b :: c :: d :: rest => do
    let a ← hexValue? a
    let b ← hexValue? b
    let c ← hexValue? c
    let d ← hexValue? d
    some (a * 4096 + b * 256 + c * 16 + d, rest)
  | _ => none

/-- The character of an escape, from the text after its backslash, and the text after it. A high
surrogate has to be followed by the escape of a low one. -/
def readEscape : List Char → Option (Char × List Char)
  | '"' :: rest => some ('"', rest)
  | '\\' :: rest => some ('\\', rest)
  | '/' :: rest => some ('/', rest)
  | 'b' :: rest => some (Char.ofNat 8, rest)
  | 'f' :: rest => some (Char.ofNat 12, rest)
  | 'n' :: rest => some ('\n', rest)
  | 'r' :: rest => some ('\r', rest)
  | 't' :: rest => some ('\t', rest)
  | 'u' :: rest => do
    let (code, rest) ← readHex4 rest
    if code < 0xD800 || 0xE000 ≤ code then some (Char.ofNat code, rest)
    else if 0xDC00 ≤ code then none
    else match rest with
      | '\\' :: 'u' :: rest => do
        let (low, rest) ← readHex4 rest
        if 0xDC00 ≤ low && low < 0xE000 then
          some (Char.ofNat (0x10000 + (code - 0xD800) * 1024 + (low - 0xDC00)), rest)
        else none
      | _ => none
  | _ => none

/-- The characters of a string, from the text after its opening quote, and the text after its
closing quote. -/
def readString : Nat → List Char → Option (List Char × List Char)
  | 0, _ => none
  | _ + 1, [] => none
  | fuel + 1, c :: rest =>
    if c = '"' then some ([], rest)
    else if c = '\\' then do
      let (d, rest) ← readEscape rest
      let (ds, rest) ← readString fuel rest
      some (d :: ds, rest)
    else if c.toNat < 32 then none
    else do
      let (ds, rest) ← readString fuel rest
      some (c :: ds, rest)

/-! ## Numbers -/

/-- The greatest number of 64 bits. -/
def word : Nat := 0xFFFFFFFFFFFFFFFF

/-- The leading digits that fit in 64 bits, starting from `n`, and how many digits are left. -/
def leading (n : Nat) : List Nat → Nat × Nat
  | [] => (n, 0)
  | d :: rest => if n * 10 + d ≤ word then leading (n * 10 + d) rest else (n, rest.length + 1)

/-- `x · 10 ^ e`, rounded once a factor; `none` beyond the range of doubles. -/
def scaleByTen (x : Float) (e : Int) : Nat → Option Float
  | 0 => some 0
  | fuel + 1 =>
    if e.natAbs ≤ 308 then
      if 0 ≤ e then
        let y := x * Float.ofScientific 1 false e.natAbs
        if (Parts.ofFloat y).isFinite then some y else none
      else some (x / Float.ofScientific 1 false e.natAbs)
    else if x == 0 then some x
    else if 0 ≤ e then none
    else scaleByTen (x / 1e308) (e + 308) fuel

/-- The double with the given digits before and after its point, and the given exponent. -/
def floatOf (negative : Bool) (whole part : List Nat) (e : Int) : Option Float := do
  let (n, dropped) := leading 0 whole
  let (n, left) := leading n part
  let used := part.length - left
  let x ← scaleByTen (Float.ofNat n) (dropped - used + e) 12
  some (if negative then -x else x)

/-- An integer of 64 bits, signed or not, and a double for every other one and for minus zero. -/
def wholeNumber (negative : Bool) (digits : List Nat) : Option Json :=
  let n := ofDigits 10 digits
  if negative then
    if 0 < n && n ≤ 0x8000000000000000 then some (.int (-n))
    else (floatOf true digits [] 0).map .float
  else if n ≤ word then some (.int n)
  else (floatOf false digits [] 0).map .float

/-- A number at the start of a text, and what follows it. -/
def readNumber (cs : List Char) : Option (Json × List Char) := do
  let (negative, cs) := match cs with
    | '-' :: rest => (true, rest)
    | rest => (false, rest)
  let (whole, rest) := spanDigits cs
  if whole.isEmpty || (whole.length > 1 && whole.head? == some 0) then none
  else
    let (part?, rest) := match rest with
      | '.' :: r => (some (spanDigits r).1, (spanDigits r).2)
      | r => (none, r)
    if part? == some [] then none
    else
      let marked := match rest with
        | c :: _ => c == 'e' || c == 'E'
        | [] => false
      let (e, after) ← readExponent rest
      if part?.isNone && !marked then
        (wholeNumber negative whole).map (·, rest)
      else
        let x ← floatOf negative whole (part?.getD []) e
        some (.float x, after)

/-! ## Values -/

mutual

/-- A value at the start of a text, after white space, and what follows it. -/
def readValue : Nat → List Char → Option (Json × List Char)
  | 0, _ => none
  | fuel + 1, cs =>
    match skipBlanks cs with
    | 'n' :: 'u' :: 'l' :: 'l' :: rest => some (.null, rest)
    | 't' :: 'r' :: 'u' :: 'e' :: rest => some (.bool true, rest)
    | 'f' :: 'a' :: 'l' :: 's' :: 'e' :: rest => some (.bool false, rest)
    | '"' :: rest => do
      let (s, rest) ← readString (rest.length + 1) rest
      some (.str (String.ofList s), rest)
    | '[' :: rest =>
      match skipBlanks rest with
      | ']' :: rest => some (.arr [], rest)
      | rest => do
        let (items, rest) ← readItems fuel rest
        some (.arr items, rest)
    | '\x7b' :: rest =>
      match skipBlanks rest with
      | '\x7d' :: rest => some (.obj [], rest)
      | rest => do
        let (entries, rest) ← readEntries fuel rest
        some (.obj entries, rest)
    | rest => readNumber rest

/-- The items of an array up to its closing bracket. -/
def readItems : Nat → List Char → Option (List Json × List Char)
  | 0, _ => none
  | fuel + 1, cs => do
    let (v, rest) ← readValue fuel cs
    match skipBlanks rest with
    | ',' :: rest => do
      let (vs, rest) ← readItems fuel rest
      some (v :: vs, rest)
    | ']' :: rest => some ([v], rest)
    | _ => none

/-- The entries of an object up to its closing brace. -/
def readEntries : Nat → List Char → Option (List (String × Json) × List Char)
  | 0, _ => none
  | fuel + 1, cs =>
    match skipBlanks cs with
    | '"' :: rest => do
      let (key, rest) ← readString (rest.length + 1) rest
      match skipBlanks rest with
      | ':' :: rest => do
        let (v, rest) ← readValue fuel rest
        match skipBlanks rest with
        | ',' :: rest => do
          let (es, rest) ← readEntries fuel rest
          some ((String.ofList key, v) :: es, rest)
        | '\x7d' :: rest => some ([(String.ofList key, v)], rest)
        | _ => none
      | _ => none
    | _ => none

end

/-- The value a whole text spells, with the entries of objects as they are written. -/
def read? (text : String) : Option Json := do
  let cs := text.toList
  let (v, rest) ← readValue (cs.length + 1) cs
  if (skipBlanks rest).isEmpty then some v else none

end UiTemplate.Json
