/-!
# Natural numbers as text
-/

namespace UiTemplate.Decimal

/-- A natural number in decimal digits. -/
def natText (n : Nat) : String :=
  String.ofList (Nat.toDigits 10 n)

end UiTemplate.Decimal
