import UiTemplate.Expression.Expr
import UiTemplate.Script.Grammar
import UiTemplate.Text.Blank
import UiTemplate.Text.Bytes

/-!
# Expressions of a template

An expression keeps its text, the tree the text denotes and the places at which the text refers to
names. Rendering is a change to the text alone: every reference to a name that is neither global nor
local is made a property of the rendering context.
-/

namespace UiTemplate

open Script

/-- An expression with its text, which has no blanks at its ends. -/
structure Expression where
  source : String
  tree : Expr
  refs : List Reference
  deriving Inhabited

/-- Why a text is not an expression of a template. -/
inductive ExpressionError where
  | empty
  | invalid (source : String)
  | notSingle (source : String)
  | unsupported (fault : Fault)
  deriving DecidableEq, Repr

/-- The wording of the error. -/
def ExpressionError.message : ExpressionError → String
  | empty => "empty expression"
  | invalid source => "invalid expression `" ++ source ++ "`"
  | notSingle source => "`" ++ source ++ "` is not a single expression"
  | unsupported fault => fault.what.name ++ " is not supported in templates"

/-- The byte offset of the error in the text without blanks at its ends. -/
def ExpressionError.offset : ExpressionError → Nat
  | unsupported fault => fault.offset
  | _ => 0

namespace Expression

/-- Reads an expression. The text stands in parentheses for this, so that an object is not taken for
a block. -/
def parse (source : String) : Except ExpressionError Expression :=
  let trimmed := Text.trim source.toList
  let text := String.ofList trimmed
  if trimmed.isEmpty then .error .empty
  else match statements? ('(' :: (trimmed ++ [')'])) with
    | none => .error (.invalid text)
    | some [.expression t] =>
      match Expr.ofTerm [] t with
      | .error fault => .error (.unsupported fault)
      | .ok (tree, refs) => .ok ⟨text, tree, refs⟩
    | some _ => .error (.notSingle text)

/-! ## Rendering -/

/-- The name under which rendered code reaches the rendering context. -/
def contextName : String := "_ctx"

/-- The names that mean the same everywhere and are never read off the context. -/
def globals : List String :=
  ["Math", "JSON", "Date", "String", "Number", "Boolean", "Array", "Object", "Map", "Set", "RegExp",
    "undefined", "NaN", "Infinity", "parseInt", "parseFloat", "isNaN", "isFinite",
    "encodeURIComponent", "decodeURIComponent", "console", contextName]

/-- Whether a name is read off the context. -/
def isFree (locals : List String) (name : String) : Bool :=
  !globals.contains name && !locals.contains name

/-- What stands for a free reference. -/
def qualified (r : Reference) : List Char :=
  let path := contextName.toList ++ '.' :: r.name.toList
  if r.shorthand then r.name.toList ++ ':' :: ' ' :: path else path

/-- The text from byte `pos` on with its free references made properties of the context. -/
def qualify (locals : List String) (pos : Nat) (cs : List Char) : List Reference → List Char
  | [] => cs
  | r :: refs =>
    let (before, rest) := Text.splitBytes (r.start - pos) cs
    let (name, rest) := Text.splitBytes (r.stop - r.start) rest
    before ++ (if isFree locals r.name then qualified r else name) ++
      qualify locals r.stop rest refs

/-- The expression as code that reads free names off the context. -/
def render (e : Expression) (locals : List String) : String :=
  String.ofList (qualify locals 0 e.source.toList e.refs)

/-- Whether the expression binds tightly enough to be an operand without parentheses. -/
def isAtomic (e : Expression) : Bool :=
  match e.tree with
  | .null | .bool _ | .number _ | .str _ | .template .. | .ident _ | .member .. | .call ..
  | .array _ => true
  | _ => false

/-- The expression as code, in parentheses unless it is atomic. -/
def renderOperand (e : Expression) (locals : List String) : String :=
  if e.isAtomic then e.render locals else "(" ++ e.render locals ++ ")"

/-- Whether the expression can be handed over as an event handler: a name, a property or an arrow
function. Every other expression is a statement to run. -/
def isHandler (e : Expression) : Bool :=
  match e.tree with
  | .ident _ | .member .. | .arrow .. => true
  | _ => false

/-- The text of an expression that is a constant string. -/
def constant? (e : Expression) : Option String :=
  match e.tree with
  | .str s => some s
  | .template quasis [] => some (String.join quasis)
  | _ => none

end Expression

end UiTemplate
