import UiTemplate.Expression.Basic
import UiTemplate.Template.Location

/-!
# Templates that cannot be read

A fault says what is wrong with a template, a flaw also at which byte, and the error that is
reported gives the location of that byte.
-/

namespace UiTemplate

/-- What is wrong with a template. -/
inductive ParseFault where
  | unterminatedComment
  | malformedClosingTag
  | unexpectedClosingTag (tag : String)
  | mismatchedClosingTag (expected found : String)
  | unclosedElement (tag : String)
  | unterminatedStartTag (tag : String)
  | malformedAttribute
  | unterminatedValue (name : String)
  | missingValue (name : String)
  | unterminatedInterpolation
  | duplicateStructure
  | elseWithValue
  | missingExpression (directive : String)
  | invalidLoop (value : String)
  | expression (error : ExpressionError)
  | strayElseIf
  | strayElse
  | twoSlotNames
  deriving DecidableEq, Repr

/-- The wording of the fault. -/
def ParseFault.message : ParseFault → String
  | unterminatedComment => "unterminated comment"
  | malformedClosingTag => "malformed closing tag"
  | unexpectedClosingTag tag => "unexpected closing tag </" ++ tag ++ ">"
  | mismatchedClosingTag expected found =>
    "expected </" ++ expected ++ "> but found </" ++ found ++ ">"
  | unclosedElement tag => "element <" ++ tag ++ "> is not closed"
  | unterminatedStartTag tag => "unterminated start tag <" ++ tag ++ ">"
  | malformedAttribute => "malformed attribute"
  | unterminatedValue name => "unterminated value for attribute `" ++ name ++ "`"
  | missingValue name => "missing value for attribute `" ++ name ++ "`"
  | unterminatedInterpolation => "unterminated interpolation"
  | duplicateStructure => "duplicate structural directive"
  | elseWithValue => "v-else does not take a value"
  | missingExpression name => name ++ " requires an expression"
  | invalidLoop value => "invalid v-for expression `" ++ value ++ "`"
  | expression error => error.message
  | strayElseIf => "v-else-if has no adjacent v-if or v-else-if"
  | strayElse => "v-else has no adjacent v-if or v-else-if"
  | twoSlotNames => "slot has both a static and a dynamic name"

/-- A fault with the byte at which it lies. -/
structure Flaw where
  fault : ParseFault
  offset : Nat
  deriving DecidableEq, Repr

/-- A fault with its location. -/
structure ParseError where
  fault : ParseFault
  location : Location
  deriving DecidableEq, Repr

/-- The wording of the error. -/
def ParseError.message (e : ParseError) : String :=
  e.fault.message ++ " at " ++ e.location.display

/-- The error that a flaw of a text is. -/
def Flaw.toError (source : List Char) (f : Flaw) : ParseError :=
  ⟨f.fault, Location.locate source f.offset⟩

end UiTemplate
