import UiTemplate.Expression.Expr
import UiTemplate.Json.Coercion

/-!
# Evaluating expressions

The value of an expression over a rendering context and the locals of the loops around it. Calls,
arrow functions, assignments and the operators on bits have no value here; reading a property of
`null` is an error.
-/

namespace UiTemplate

open Script Json Decimal

/-- What has no value. -/
inductive NoValue where
  | operator (symbol : String)
  | call
  | arrow
  | assignment
  deriving DecidableEq, Repr

/-- Why an evaluation fails. -/
inductive EvalError where
  | unsupported (what : NoValue)
  | nullProperty (key : String)
  | unknownKey (key : String)
  deriving DecidableEq, Repr

/-- How the part without a value is called. -/
def NoValue.name : NoValue → String
  | operator symbol => "operator `" ++ symbol ++ "`"
  | call => "function call"
  | arrow => "arrow function"
  | assignment => "assignment"

/-- The wording of the error. -/
def EvalError.message : EvalError → String
  | unsupported what => "unsupported in reference evaluation: " ++ what.name
  | nullProperty key => "type error: cannot read property `" ++ key ++ "` of null"
  | unknownKey key => "unknown binding key `" ++ key ++ "`"

/-- What names mean: the locals, the innermost first, and the rendering context. -/
structure Scope where
  context : Json
  locals : List (String × Json)

namespace Scope

/-- The scope without locals. -/
def ofContext (context : Json) : Scope :=
  ⟨context, []⟩

/-- The scope with further locals, of which a later one hides an earlier one. -/
def withLocals (scope : Scope) (locals : List (String × Json)) : Scope :=
  { scope with locals := locals.reverse ++ scope.locals }

/-- The value of a name: a local, one of three constants, or an entry of the context. -/
def lookup (scope : Scope) (name : String) : Json :=
  match Json.lookup name scope.locals with
  | some v => v
  | none =>
    if name = "undefined" then .null
    else if name = "NaN" then ofNumber notANumber
    else if name = "Infinity" then ofNumber infinity
    else (scope.context.get? name).getD .null

end Scope

/-! ## Operators -/

/-- The kind of a value. -/
def typeName : Json → String
  | .null | .arr _ | .obj _ => "object"
  | .bool _ => "boolean"
  | .int _ | .float _ => "number"
  | .str _ => "string"

/-- The length of a text in sixteen-bit units. -/
def units16 (cs : List Char) : Nat :=
  cs.foldl (fun n c => n + if c.toNat < 0x10000 then 1 else 2) 0

/-- The property of a value. An array or a text has a length and its items. -/
def property (object key : Json) : Except EvalError Json :=
  let key := key.toText
  match object with
  | .null => .error (.nullProperty key)
  | .arr items =>
    if key = "length" then .ok (.nat items.length)
    else .ok (((readIndex? key.toList).bind fun i => items[i]?).getD .null)
  | .str s =>
    if key = "length" then .ok (.nat (units16 s.toList))
    else .ok <|
      match (readIndex? key.toList).bind fun i => s.toList[i]? with
      | some c => .str (String.ofList [c])
      | none => .null
  | .obj entries => .ok ((Json.lookup key entries).getD .null)
  | .bool _ | .int _ | .float _ => .ok .null

/-- Whether a value is a number. -/
def isNumber : Json → Bool
  | .int _ | .float _ => true
  | _ => false

/-- Equality without coercion. An array or object equals nothing. -/
def strictEquals : Json → Json → Bool
  | .null, .null => true
  | .bool a, .bool b => a == b
  | .str a, .str b => a == b
  | a, b => isNumber a && isNumber b && a.toNumber == b.toNumber

/-- Whether a value is a truth value or a number. -/
def isScalar : Json → Bool
  | .bool _ | .int _ | .float _ => true
  | _ => false

/-- Equality with coercion: a truth value or number is compared as a number, and `null` equals
itself alone. -/
def looseEquals (a b : Json) : Bool :=
  if a.isNull || b.isNull then a.isNull && b.isNull
  else if isScalar a || isScalar b then a.toNumber == b.toNumber
  else strictEquals a b

/-- The order of two values: that of texts if both are, that of numbers otherwise, if they have
one. -/
def order? (a b : Json) : Option Ordering :=
  match a, b with
  | .str s, .str t => some (if s < t then .lt else if s = t then .eq else .gt)
  | _, _ =>
    let x := a.toNumber
    let y := b.toNumber
    if x < y then some .lt else if x == y then some .eq else if y < x then some .gt else none

/-- Whether adding the value joins texts. -/
def joinsText : Json → Bool
  | .str _ | .arr _ | .obj _ => true
  | _ => false

/-- The value of an operator between two values. -/
def applyBinary (op : BinaryOp) (a b : Json) : Except EvalError Json :=
  match op with
  | .add =>
    if joinsText a || joinsText b then .ok (.str (a.toText ++ b.toText))
    else .ok (ofNumber (a.toNumber + b.toNumber))
  | .sub => .ok (ofNumber (a.toNumber - b.toNumber))
  | .mul => .ok (ofNumber (a.toNumber * b.toNumber))
  | .div => .ok (ofNumber (a.toNumber / b.toNumber))
  | .rem => .ok (ofNumber (remainder a.toNumber b.toNumber))
  | .pow => .ok (ofNumber (Float.pow a.toNumber b.toNumber))
  | .eq => .ok (.bool (looseEquals a b))
  | .notEq => .ok (.bool (!looseEquals a b))
  | .strictEq => .ok (.bool (strictEquals a b))
  | .strictNotEq => .ok (.bool (!strictEquals a b))
  | .lt => .ok (.bool (order? a b == some .lt))
  | .ltEq => .ok (.bool (order? a b == some .lt || order? a b == some .eq))
  | .gt => .ok (.bool (order? a b == some .gt))
  | .gtEq => .ok (.bool (order? a b == some .gt || order? a b == some .eq))
  | op => .error (.unsupported (.operator op.symbol))

/-- The value of an operator in front of a value. -/
def applyUnary (op : UnaryOp) (a : Json) : Except EvalError Json :=
  match op with
  | .not => .ok (.bool (!a.isTruthy))
  | .neg => .ok (ofNumber (-a.toNumber))
  | .plus => .ok (ofNumber a.toNumber)
  | .typeOf => .ok (.str (typeName a))
  | .void => .ok .null
  | op => .error (.unsupported (.operator op.symbol))

/-- Whether the first operand decides a logical operator. -/
def decides (op : LogicalOp) (a : Json) : Bool :=
  match op with
  | .and => !a.isTruthy
  | .or => a.isTruthy
  | .coalesce => !a.isNull

/-- Chunks with the texts of the holes between them. -/
def interleave : List String → List String → String
  | [], _ => ""
  | [q], [] => q
  | q :: quasis, [] => q ++ interleave quasis []
  | q :: quasis, t :: texts => q ++ t ++ interleave quasis texts

/-! ## Evaluation -/

namespace Expr

mutual

/-- The value of an expression. -/
def eval (scope : Scope) : Expr → Except EvalError Json
  | .null => .ok .null
  | .bool b => .ok (.bool b)
  | .number x => .ok (ofNumber x)
  | .str s => .ok (.str s)
  | .template quasis holes => do
    let values ← evalAll scope holes
    .ok (.str (interleave quasis (values.map Json.toText)))
  | .ident name => .ok (scope.lookup name)
  | .member owner key => do
    let v ← eval scope owner
    let k ← eval scope key
    property v k
  | .unary op argument => do
    let a ← eval scope argument
    applyUnary op a
  | .binary op left right => do
    let a ← eval scope left
    let b ← eval scope right
    applyBinary op a b
  | .logical op left right => do
    let a ← eval scope left
    if decides op a then .ok a else eval scope right
  | .conditional test consequent alternate => do
    let a ← eval scope test
    if a.isTruthy then eval scope consequent else eval scope alternate
  | .array items => do
    let values ← evalAll scope items
    .ok (.arr values)
  | .object fields => do
    let fields ← evalFields scope fields
    .ok (Json.ofFields fields)
  | .sequence items => do
    let values ← evalAll scope items
    .ok (values.getLast?.getD .null)
  | .call .. => .error (.unsupported .call)
  | .arrow .. => .error (.unsupported .arrow)
  | .assign .. => .error (.unsupported .assignment)
  | .update .. => .error (.unsupported .assignment)

/-- The values of expressions, from the first on. -/
def evalAll (scope : Scope) : List Expr → Except EvalError (List Json)
  | [] => .ok []
  | e :: rest => do
    let v ← eval scope e
    let vs ← evalAll scope rest
    .ok (v :: vs)

/-- The fields of an object with their values. -/
def evalFields (scope : Scope) : List (String × Expr) → Except EvalError (List (String × Json))
  | [] => .ok []
  | (key, e) :: rest => do
    let v ← eval scope e
    let vs ← evalFields scope rest
    .ok ((key, v) :: vs)

end

end Expr

end UiTemplate
