import UiTemplate.Decimal.Shortest

/-!
# Reading decimals

The double nearest to a decimal, and the two texts a number is read from outside of scripts: the
text of a floating-point number and the text of an index.
-/

namespace UiTemplate.Decimal

/-- The double nearest to a decimal. Decimals far beyond the range of doubles are settled by their
magnitude alone. -/
def Scientific.toFloat (s : Scientific) : Float :=
  if s.coefficient == 0 then 0
  else if 400 < s.magnitude then infinity
  else if s.magnitude < -400 then 0
  else if 0 ≤ s.exponent then Float.ofScientific s.coefficient false s.exponent.toNat
  else Float.ofScientific s.coefficient true (-s.exponent).toNat

/-- The number a list of digits in the given base spells. -/
def ofDigits (base : Nat) (digits : List Nat) : Nat :=
  digits.foldl (fun n d => n * base + d) 0

/-- The value of a decimal digit. -/
def digit? (c : Char) : Option Nat :=
  if '0' ≤ c && c ≤ '9' then some (c.toNat - '0'.toNat) else none

/-- The digits at the start of a text, and what follows them. -/
def spanDigits (cs : List Char) : List Nat × List Char :=
  let run := cs.takeWhile fun c => (digit? c).isSome
  (run.filterMap digit?, cs.drop run.length)

/-- The exponent at the start of a text (`e`, an optional sign and digits), and what follows it.
`none` if digits are missing after the `e`. -/
def readExponent : List Char → Option (Int × List Char)
  | c :: cs =>
    if c == 'e' || c == 'E' then
      let (negative, rest) := match cs with
        | '-' :: r => (true, r)
        | '+' :: r => (false, r)
        | r => (false, r)
      match spanDigits rest with
      | ([], _) => none
      | (digits, after) =>
        let n : Int := ofDigits 10 digits
        some (if negative then -n else n, after)
    else some (0, c :: cs)
  | [] => some (0, [])

/-- An unsigned decimal such as `12`, `1.5`, `.5`, `5.` or `1e-3`, as a whole text. -/
def readUnsigned (cs : List Char) : Option Scientific :=
  let (whole, rest) := spanDigits cs
  let (part, rest) := match rest with
    | '.' :: r => spanDigits r
    | r => ([], r)
  if whole.isEmpty && part.isEmpty then none
  else match readExponent rest with
    | some (e, []) => some ⟨ofDigits 10 (whole ++ part), e - part.length⟩
    | _ => none

/-- The double a text spells, with an optional sign. Besides decimals, `inf`, `infinity` and `nan`
are read in any case. -/
def readFloat? (cs : List Char) : Option Float :=
  let (negative, body) := match cs with
    | '-' :: r => (true, r)
    | '+' :: r => (false, r)
    | r => (false, r)
  let word := body.map Char.toLower
  let magnitude? : Option Float :=
    if word == ['i', 'n', 'f'] || word == ['i', 'n', 'f', 'i', 'n', 'i', 't', 'y'] then
      some infinity
    else if word == ['n', 'a', 'n'] then some notANumber
    else (readUnsigned body).map Scientific.toFloat
  magnitude?.map fun x => if negative then -x else x

/-- The index a text spells: digits after an optional plus sign, below `2 ^ 64`. -/
def readIndex? (cs : List Char) : Option Nat :=
  let body := match cs with
    | '+' :: r => r
    | r => r
  match spanDigits body with
  | ([], _) => none
  | (digits, []) =>
    let n := ofDigits 10 digits
    if n < 0x10000000000000000 then some n else none
  | _ => none

end UiTemplate.Decimal
