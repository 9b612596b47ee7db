import UiTemplate.Script.Lexer
import UiTemplate.Script.Term

/-!
# Reading a script

A reader consumes tokens from a cursor and fails on text outside the grammar. The productions of the
grammar call each other in circles; `Rules` collects the ones through which every circle passes, so
that each production is an ordinary definition over the rules it is given, and the circle is closed
once (`UiTemplate.Script.Grammar`).
-/

namespace UiTemplate.Script

/-- Where the reading of a script stands: the current token and the text after it, how many fields
written `name = value` no pattern has accounted for yet, and the names exported so far. -/
structure Cursor where
  current : Lexeme
  rest : List Char
  pending : Nat
  exported : List String

/-- A reader of a part of a script. -/
abbrev Reader := StateT Cursor Option

/-- What surrounds a part of a script. -/
structure Context where
  /-- `in` is not an operator here. -/
  noIn : Bool
  /-- `await` is an operator here. -/
  await : Bool
  /-- `yield` is an operator here. -/
  yield : Bool
  /-- A `return` may stand here. -/
  body : Bool
  /-- A decorator is being read, so that a bracket is no member. -/
  decorator : Bool

/-- What a pattern declares: its names, and whether it is a name alone. -/
structure Declared where
  names : List String
  plain : Bool

/-- The name that a pattern is. -/
def Declared.name? (d : Declared) : Option String :=
  if d.plain then d.names.head? else none

/-- The productions through which the grammar is recursive. -/
structure Rules where
  /-- An expression without commas at its top. -/
  assignment : Context → Reader Term
  /-- Operands with operators of a rank above the given one between them. -/
  binary : Context → Nat → Reader Term
  /-- An operand with the operators in front of it. -/
  unary : Context → Reader Term
  /-- A term with its members. -/
  subject : Context → Reader Term
  /-- A term with its members and calls. -/
  chain : Context → Reader Term
  binding : Context → Reader Declared
  /-- A statement; the flag tells that it stands alone, where a list of statements cannot. -/
  statement : Context → Bool → Reader Statement

namespace Reader

/-- The reader that fails. -/
def fail {α : Type} : Reader α :=
  fun _ => none

/-- Fails unless the condition holds. -/
def require (b : Bool) : Reader Unit :=
  if b then pure () else fail

/-- The current token. -/
def token : Reader Token :=
  return (← get).current.token

/-- Where the current token starts. -/
def start : Reader Nat :=
  return (← get).current.start

/-- Whether a line break stands before the current token. -/
def newline : Reader Bool :=
  return (← get).current.newline

/-- Moves to the next token. -/
def advance : Reader Unit :=
  modify fun c =>
    let (lexeme, rest) := next c.current.stop c.rest
    { c with current := lexeme, rest := rest }

/-- The token after the current one. -/
def lookahead : Reader Lexeme :=
  return (next (← get).current.stop (← get).rest).1

/-- The next `n` tokens of a text. -/
def lexemes : Nat → Nat → List Char → List Lexeme
  | 0, _, _ => []
  | n + 1, pos, cs =>
    let (lexeme, rest) := next pos cs
    lexeme :: lexemes n lexeme.stop rest

/-- The `n` tokens after the current one. -/
def ahead (n : Nat) : Reader (List Lexeme) :=
  return lexemes n (← get).current.stop (← get).rest

/-- Reads a part if it can be read, and stays where it is otherwise. -/
def attempt? {α : Type} (part : Reader α) : Reader (Option α) :=
  fun c => match part c with
    | some (a, c) => some (some a, c)
    | none => some (none, c)

/-- Whether the token is the punctuator. -/
def isPunct (p : Punct) : Token → Bool
  | .punct q => p == q
  | _ => false

/-- Whether the current token is the punctuator. -/
def at? (p : Punct) : Reader Bool :=
  return isPunct p (← token)

/-- Takes the punctuator if it is the current token, and tells whether it was. -/
def eat (p : Punct) : Reader Bool := do
  if ← at? p then
    advance
    return true
  else return false

/-- Takes the punctuator. -/
def expect (p : Punct) : Reader Unit := do
  require (← eat p)

/-- Whether a token is the keyword; a word with an escape in it never is. -/
def isKeyword (keyword : String) : Token → Bool
  | .word name escaped => name == keyword && !escaped
  | _ => false

/-- Whether the current token is the keyword. -/
def atWord (keyword : String) : Reader Bool :=
  return isKeyword keyword (← token)

/-- Takes the keyword if it is the current token, and tells whether it was. -/
def eatWord (keyword : String) : Reader Bool := do
  if ← atWord keyword then
    advance
    return true
  else return false

/-- Takes the keyword. -/
def expectWord (keyword : String) : Reader Unit := do
  require (← eatWord keyword)

/-- Repeats a step, at most `fuel` times, until it yields a result. -/
def iterate {α β : Type} (step : α → Reader (α ⊕ β)) : Nat → α → Reader β
  | 0, _ => fail
  | fuel + 1, a => do
    match ← step a with
    | .inl a => iterate step fuel a
    | .inr b => return b

/-- Repeats a step that takes a token each time until it yields a result. -/
def repeatFrom {α β : Type} (a : α) (step : α → Reader (α ⊕ β)) : Reader β := do
  iterate step ((← get).rest.length + 3) a

/-- Items separated by commas up to a closing punctuator, which is taken. The result tells whether
a comma follows the last item. -/
def delimited {α : Type} (close : Punct) (item : Reader α) : Reader (List α × Bool) :=
  repeatFrom ([], false) fun (items, trailing) => do
    if ← eat close then return .inr (items.reverse, trailing)
    else
      let a ← item
      if ← eat .comma then return .inl (a :: items, true)
      else
        expect close
        return .inr ((a :: items).reverse, false)

/-- Ends a statement: with a semicolon, or without one before a closing brace, at the end of the
text or of a line. -/
def endStatement : Reader Unit := do
  if ← eat .semicolon then return ()
  else match ← token with
    | .eof => return ()
    | .punct .rightBrace => return ()
    | _ => require (← newline)

/-- Accounts for `n` of the fields written `name = value`. -/
def settle (n : Nat) : Reader Unit :=
  modify fun c => { c with pending := c.pending - n }

/-- Exports a name, which no other export has. -/
def exportName (name : String) : Reader Unit := do
  require !((← get).exported.contains name)
  modify fun c => { c with exported := name :: c.exported }

/-- Exports names. -/
def exportNames : List String → Reader Unit
  | [] => return ()
  | name :: names => do
    exportName name
    exportNames names

end Reader

/-! ## Words -/

/-- The words that are never names. -/
def reservedWords : List String :=
  ["break", "case", "catch", "class", "const", "continue", "debugger", "default", "delete", "do",
    "else", "enum", "export", "extends", "false", "finally", "for", "function", "if", "import",
    "in", "instanceof", "new", "null", "return", "super", "switch", "this", "throw", "true", "try",
    "typeof", "var", "void", "while", "with"]

/-- The words that are names and have a meaning of their own in some place. -/
def contextualWords : List String :=
  ["abstract", "accessor", "any", "as", "assert", "asserts", "async", "await", "bigint", "boolean",
    "constructor", "declare", "defer", "from", "get", "global", "implements", "infer", "interface",
    "intrinsic", "is", "keyof", "let", "meta", "module", "namespace", "never", "number", "object",
    "of", "out", "override", "package", "private", "protected", "public", "readonly", "require",
    "satisfies", "set", "source", "static", "string", "symbol", "target", "type", "undefined",
    "unique", "unknown", "using", "yield"]

/-- Whether a word can be a name anywhere. -/
def isBindingWord (word : String) : Bool :=
  !reservedWords.contains word

/-- Whether a token is a word that can be a name anywhere. -/
def Token.isBindingWord : Token → Bool
  | .word name _ => Script.isBindingWord name
  | _ => false

/-- Whether a word is a name here. -/
def Context.isName (ctx : Context) (word : String) : Bool :=
  isBindingWord word && !(ctx.await && word == "await") && !(ctx.yield && word == "yield")

/-- The context inside parentheses, brackets and braces, where `in` is an operator. -/
def Context.inner (ctx : Context) : Context :=
  { ctx with noIn := false, decorator := false }

/-- The context of the body of a function. -/
def Context.function (async generator : Bool) : Context where
  noIn := false
  await := async
  yield := generator
  body := true
  decorator := false

end UiTemplate.Script
