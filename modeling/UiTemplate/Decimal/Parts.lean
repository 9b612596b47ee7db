/-!
# Double-precision numbers taken apart

A double is not a number, infinite, or `± mantissa · 2 ^ exponent` exactly. Everything that prints,
rounds or reduces a double works on these parts in exact integer arithmetic.
-/

namespace UiTemplate.Decimal

/-- The double that is not a number. -/
def notANumber : Float := 0.0 / 0.0

/-- The double beyond all others. -/
def infinity : Float := 1.0 / 0.0

/-- What a double-precision number is. -/
inductive Parts where
  | nan
  | infinite (negative : Bool)
  | finite (negative : Bool) (mantissa : Nat) (exponent : Int)
  deriving DecidableEq, Repr

/-- The parts of the double with the given bit pattern. -/
def Parts.ofBits (bits : UInt64) : Parts :=
  let n := bits.toNat
  let negative := n / 0x8000000000000000 == 1
  let scale : Nat := n / 0x10000000000000 % 0x800
  let fraction := n % 0x10000000000000
  if scale == 2047 then
    if fraction == 0 then .infinite negative else .nan
  else if scale == 0 then .finite negative fraction (-1074)
  else .finite negative (fraction + 0x10000000000000) ((scale : Int) - 1075)

/-- The parts of a double. -/
def Parts.ofFloat (x : Float) : Parts :=
  .ofBits x.toBits

/-- Whether a double is neither infinite nor not-a-number. -/
def Parts.isFinite : Parts → Bool
  | .finite .. => true
  | _ => false

/-- The integer a double equals, if it equals one. -/
def Parts.whole? : Parts → Option Int
  | .finite negative mantissa exponent =>
    let magnitude? : Option Nat :=
      if 0 ≤ exponent then some (mantissa * Nat.pow 2 exponent.toNat)
      else
        let unit := Nat.pow 2 (-exponent).toNat
        if mantissa % unit == 0 then some (mantissa / unit) else none
    magnitude?.map fun (n : Nat) => if negative then -(n : Int) else n
  | _ => none

/-- The least integer that is not below a positive double; 0 for every other double. -/
def Parts.ceil : Parts → Nat
  | .finite false mantissa exponent =>
    if 0 ≤ exponent then mantissa * Nat.pow 2 exponent.toNat
    else
      let unit := Nat.pow 2 (-exponent).toNat
      (mantissa + unit - 1) / unit
  | _ => 0

/-- The remainder of a division that rounds its quotient toward zero. It is exact, and it has the
sign of the dividend; dividing by zero or an infinity by anything gives no number. -/
def remainder (x y : Float) : Float :=
  match Parts.ofFloat x, Parts.ofFloat y with
  | .finite negative m p, .finite _ n q =>
    if n == 0 then notANumber
    else
      let low := min p q
      let r := (m * Nat.pow 2 (p - low).toNat) % (n * Nat.pow 2 (q - low).toNat)
      let magnitude := Float.scaleB (Float.ofNat r) low
      if negative then -magnitude else magnitude
  | .finite .., .infinite _ => x
  | _, _ => notANumber

end UiTemplate.Decimal
