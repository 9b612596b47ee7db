import UiTemplate.Decimal.Natural
import UiTemplate.Decimal.Shortest
import UiTemplate.Json.Basic
import UiTemplate.Json.Quoted

/-!
# Printing JSON

Compact text, and text indented by two blanks a level. An empty array or object is written without
a line break in both.
-/

namespace UiTemplate.Json

open Decimal

/-- Numbers are positional from `0.00001` up to below `10 ^ 16`. -/
def numberLayout : Layout where
  least := -5
  bound := 16

/-- A double as JSON writes it; what is no finite number is written `null`. -/
def floatText (x : Float) : String :=
  match Parts.ofFloat x with
  | .finite negative mantissa exponent =>
    (if negative then "-" else "") ++ numberLayout.render (shortest mantissa exponent)
  | _ => "null"

/-- An integer in decimal digits. -/
def intText : Int → String
  | .ofNat n => Decimal.natText n
  | .negSucc n => "-" ++ Decimal.natText (n + 1)

mutual

/-- Compact text, with strings written by `quote`. -/
def compactWith (quote : String → String) : Json → String
  | .null => "null"
  | .bool true => "true"
  | .bool false => "false"
  | .int n => intText n
  | .float x => floatText x
  | .str s => quote s
  | .arr items => "[" ++ compactItems quote items ++ "]"
  | .obj entries => "\x7b" ++ compactEntries quote entries ++ "\x7d"

/-- The items of an array, with commas between them. -/
def compactItems (quote : String → String) : List Json → String
  | [] => ""
  | [v] => compactWith quote v
  | v :: rest => compactWith quote v ++ "," ++ compactItems quote rest

/-- The entries of an object, with commas between them. -/
def compactEntries (quote : String → String) : List (String × Json) → String
  | [] => ""
  | [(k, v)] => quote k ++ ":" ++ compactWith quote v
  | (k, v) :: rest => quote k ++ ":" ++ compactWith quote v ++ "," ++ compactEntries quote rest

end

/-- Compact text. -/
def compact : Json → String :=
  compactWith quoted

/-- Compact text in ASCII. -/
def compactAscii : Json → String :=
  compactWith quotedAscii

/-- A new line with two blanks a level. -/
def newline (level : Nat) : String :=
  String.ofList ('\n' :: List.replicate (2 * level) ' ')

mutual

/-- Indented text, from a line that stands at `level`. -/
def pretty (level : Nat) : Json → String
  | .arr [] => "[]"
  | .obj [] => "\x7b\x7d"
  | .arr items => "[" ++ prettyItems (level + 1) items ++ newline level ++ "]"
  | .obj entries => "\x7b" ++ prettyEntries (level + 1) entries ++ newline level ++ "\x7d"
  | .null => "null"
  | .bool true => "true"
  | .bool false => "false"
  | .int n => intText n
  | .float x => floatText x
  | .str s => quoted s

/-- The items of an array, each on a line of its own. -/
def prettyItems (level : Nat) : List Json → String
  | [] => ""
  | [v] => newline level ++ pretty level v
  | v :: rest => newline level ++ pretty level v ++ "," ++ prettyItems level rest

/-- The entries of an object, each on a line of its own. -/
def prettyEntries (level : Nat) : List (String × Json) → String
  | [] => ""
  | [(k, v)] => newline level ++ quoted k ++ ": " ++ pretty level v
  | (k, v) :: rest =>
    newline level ++ quoted k ++ ": " ++ pretty level v ++ "," ++ prettyEntries level rest

end

end UiTemplate.Json
