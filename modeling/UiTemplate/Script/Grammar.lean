import UiTemplate.Script.Grammar.Statement

/-!
# The grammar of scripts

The rules of the grammar, closed into themselves. Each use of a rule inside another costs one unit
of fuel. At most two rules are used before a token is taken, so twice the length of the text and a
little more never runs out.
-/

namespace UiTemplate.Script

open Reader

/-- The rules from which no text can be read. -/
def Rules.none : Rules where
  assignment _ := fail
  binary _ _ := fail
  unary _ := fail
  subject _ := fail
  chain _ := fail
  binding _ := fail
  statement _ _ := fail

/-- The rules whose parts are read by the given rules. -/
def Rules.over (r : Rules) : Rules where
  assignment := assignmentTerm r
  binary := binaryTerm r
  unary := unaryTerm r
  subject := subjectTerm r
  chain := chainTerm r
  binding := bindingPattern r
  statement := statementTerm r

/-- The rules for texts whose parts are nested at most so many times. -/
def Rules.ofDepth : Nat → Rules
  | 0 => .none
  | depth + 1 => (Rules.ofDepth depth).over

/-- What surrounds a whole script. The script is a module, so `await` may stand at its top. -/
def Context.top : Context where
  noIn := false
  await := true
  yield := false
  body := false
  decorator := false

/-- The statements of a whole script. -/
def script (r : Rules) : Reader (List Statement) :=
  repeatFrom [] fun statements => do
    match ← token with
    | .eof => return .inr statements.reverse
    | _ =>
      let s ← r.statement .top false
      return .inl (s :: statements)

/-- The statements of a text, or nothing if the text is no script. A field written `name = value`
that is not part of a pattern is none. -/
def statements? (text : List Char) : Option (List Statement) := do
  let (lexeme, rest) := next 0 text
  let rules := Rules.ofDepth (2 * text.length + 8)
  let (statements, cursor) ← (script rules).run ⟨lexeme, rest, 0, []⟩
  if cursor.pending = 0 then some statements else none

end UiTemplate.Script
