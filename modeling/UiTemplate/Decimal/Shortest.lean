import UiTemplate.Decimal.Parts

/-!
# Shortest decimals

The decimal with the fewest digits among those that read back as a given double, and of two such
decimals with equally many digits the one nearer to the double. A decimal reads back when it lies
between the midpoints to the neighbouring doubles; the midpoints themselves count when the mantissa
is even.
-/

namespace UiTemplate.Decimal

/-- The decimal `coefficient · 10 ^ exponent`. -/
structure Scientific where
  coefficient : Nat
  exponent : Int
  deriving DecidableEq, Repr

/-- The least `j` with `den ≤ num · 10 ^ j`, looked for among the first `fuel` numbers. -/
def leadingZeros (num den : Nat) : Nat → Nat
  | 0 => 0
  | fuel + 1 => if den ≤ num then 0 else leadingZeros (num * 10) den fuel + 1

/-- The `e` with `10 ^ e ≤ num / den < 10 ^ (e + 1)`, for a fraction that is not below
`10 ^ -400`. -/
def decimalExponent (num den : Nat) : Int :=
  if den ≤ num then ((Nat.toDigits 10 (num / den)).length : Int) - 1
  else -(leadingZeros num den 400 : Int)

/-- A stretch of the real line around a double, in units of a quarter of its last binary digit:
the double and the two ends of the decimals that read back as it. -/
structure Interval where
  low : Nat
  middle : Nat
  high : Nat
  closed : Bool
  unit : Int

/-- The decimals that read back as the positive double `mantissa · 2 ^ exponent`. The gap below a
power of two is half as wide as the gap above it. -/
def Interval.around (mantissa : Nat) (exponent : Int) : Interval :=
  let narrow := mantissa == 0x10000000000000 && -1074 < exponent
  { low := 4 * mantissa - (if narrow then 1 else 2)
    middle := 4 * mantissa
    high := 4 * mantissa + 2
    closed := mantissa % 2 == 0
    unit := exponent - 2 }

/-- Of the two multiples of `10 ^ power` next to the middle, one that lies in the interval: the
nearer one if both do, the lower one at a tie. -/
def Interval.decimalAt? (i : Interval) (power : Int) : Option Scientific :=
  let up := Nat.pow 2 i.unit.toNat * Nat.pow 10 (-power).toNat
  let down := Nat.pow 2 (-i.unit).toNat * Nat.pow 10 power.toNat
  let inside (n : Nat) : Bool :=
    if i.closed then i.low * up ≤ n * down && n * down ≤ i.high * up
    else i.low * up < n * down && n * down < i.high * up
  let below := i.middle * up / down
  let above := below + 1
  match inside below, inside above with
  | true, true =>
    if i.middle * up - below * down ≤ above * down - i.middle * up then some ⟨below, power⟩
    else some ⟨above, power⟩
  | true, false => some ⟨below, power⟩
  | false, true => some ⟨above, power⟩
  | false, false => none

/-- The same decimal without zeros at the end of its coefficient, of which at most `fuel` are
dropped. -/
def Scientific.stripZeros (s : Scientific) : Nat → Scientific
  | 0 => s
  | fuel + 1 =>
    if s.coefficient != 0 && s.coefficient % 10 == 0 then
      Scientific.stripZeros ⟨s.coefficient / 10, s.exponent + 1⟩ fuel
    else s

/-- The shortest decimal that reads back as the double `mantissa · 2 ^ exponent`. Seventeen digits
always suffice. -/
def shortest (mantissa : Nat) (exponent : Int) : Scientific :=
  if mantissa == 0 then ⟨0, 0⟩
  else
    let interval := Interval.around mantissa exponent
    let top := decimalExponent (mantissa * Nat.pow 2 exponent.toNat) (Nat.pow 2 (-exponent).toNat)
    let found := (List.range 17).findSome? fun (i : Nat) => interval.decimalAt? (top - i)
    (found.getD ⟨0, 0⟩).stripZeros 20

/-! ## Layout -/

/-- The digits of a decimal. -/
def Scientific.digits (s : Scientific) : List Char :=
  Nat.toDigits 10 s.coefficient

/-- The power of ten of the first digit. -/
def Scientific.magnitude (s : Scientific) : Int :=
  (s.digits.length : Int) + s.exponent - 1

/-- The decimal in positional notation: the digits before the point and those after it. -/
def Scientific.split (s : Scientific) : List Char × List Char :=
  let digits := s.digits
  if 0 ≤ s.exponent then (digits ++ List.replicate s.exponent.toNat '0', [])
  else
    let point := (digits.length : Int) + s.exponent
    if 0 < point then digits.splitAt point.toNat
    else (['0'], List.replicate (-point).toNat '0' ++ digits)

/-- Positional notation, with a point only where digits follow it. -/
def Scientific.positional (s : Scientific) : String :=
  match s.split with
  | (whole, []) => String.ofList whole
  | (whole, part) => String.ofList (whole ++ '.' :: part)

/-- How a number is laid out: positionally when the power of ten of its first digit is at least
`least` and below `bound`, with an exponent otherwise. -/
structure Layout where
  least : Int
  bound : Int
  deriving Repr

/-- A decimal laid out. Positional notation keeps at least one digit after the point; an exponent
always shows its sign. -/
def Layout.render (l : Layout) (s : Scientific) : String :=
  if s.coefficient == 0 || (l.least ≤ s.magnitude && s.magnitude < l.bound) then
    match s.split with
    | (whole, []) => String.ofList (whole ++ ['.', '0'])
    | (whole, part) => String.ofList (whole ++ '.' :: part)
  else
    let mantissa := match s.digits with
      | [] => []
      | [d] => [d]
      | d :: rest => d :: '.' :: rest
    let sign := if s.magnitude < 0 then '-' else '+'
    String.ofList (mantissa ++ 'e' :: sign :: Nat.toDigits 10 s.magnitude.natAbs)

end UiTemplate.Decimal
