/-!
# Operators

The operators of the expression language with their spellings.
-/

namespace UiTemplate.Script

/-- An operator before its one operand. -/
inductive UnaryOp where
  | not
  | neg
  | plus
  | typeOf
  | void
  | bitNot
  | delete
  deriving DecidableEq, Repr

/-- How the operator is written. -/
def UnaryOp.symbol : UnaryOp → String
  | not => "!"
  | neg => "-"
  | plus => "+"
  | typeOf => "typeof"
  | void => "void"
  | bitNot => "~"
  | delete => "delete"

/-- An operator between two operands, both of which are evaluated. -/
inductive BinaryOp where
  | add
  | sub
  | mul
  | div
  | rem
  | pow
  | eq
  | notEq
  | strictEq
  | strictNotEq
  | lt
  | ltEq
  | gt
  | gtEq
  | bitAnd
  | bitOr
  | bitXor
  | shiftLeft
  | shiftRight
  | shiftRightZero
  | isIn
  | instanceOf
  deriving DecidableEq, Repr

/-- How the operator is written. -/
def BinaryOp.symbol : BinaryOp → String
  | add => "+"
  | sub => "-"
  | mul => "*"
  | div => "/"
  | rem => "%"
  | pow => "**"
  | eq => "=="
  | notEq => "!="
  | strictEq => "==="
  | strictNotEq => "!=="
  | lt => "<"
  | ltEq => "<="
  | gt => ">"
  | gtEq => ">="
  | bitAnd => "&"
  | bitOr => "|"
  | bitXor => "^"
  | shiftLeft => "<<"
  | shiftRight => ">>"
  | shiftRightZero => ">>>"
  | isIn => "in"
  | instanceOf => "instanceof"

/-- An operator whose second operand is evaluated only if the first one does not decide. -/
inductive LogicalOp where
  | and
  | or
  | coalesce
  deriving DecidableEq, Repr

end UiTemplate.Script
