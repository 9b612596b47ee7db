import UiTemplate.Script.Grammar.Expression

/-!
# Declarations

Declarations of variables, functions and classes. A declaration begins with its keyword, but `let`
and `using` are names too: they declare something only if what follows can be declared.
-/

namespace UiTemplate.Script

open Reader

/-- How variables are declared. -/
inductive Declaration where
  | var
  | block
  | const
  /-- Variables that are disposed of at the end of their block. -/
  | using
  deriving DecidableEq, Repr

/-- A variable in a declaration: what it declares, and whether it has a value. -/
structure Declarator where
  declared : Declared
  valued : Bool

/-- Whether a statement may declare the variable so. Only plain names can do without a value. -/
def Declaration.allows (d : Declaration) (v : Declarator) : Bool :=
  v.valued || (v.declared.plain && (d == .var || d == .block))

/-- Whether the start of a counting loop may declare the variable so. -/
def Declaration.allowsInLoop (d : Declaration) (v : Declarator) : Bool :=
  v.valued || (v.declared.plain && d != .const)

/-- A variable and its optional value. What is disposed of has a plain name. -/
def declarator (r : Rules) (ctx : Context) (d : Declaration) : Reader Declarator := do
  let declared ← r.binding ctx
  require (declared.plain || d != .using)
  return ⟨declared, ← optionalValue r ctx⟩

/-- Variables with commas between them. -/
def declarators (r : Rules) (ctx : Context) (d : Declaration) : Reader (List Declarator) :=
  repeatFrom [] fun vars => do
    let v ← declarator r ctx d
    if ← eat .comma then return .inl (v :: vars) else return .inr (v :: vars).reverse

/-- A declaration of variables after its keyword, up to its end; the result lists the names. -/
def declarationRest (r : Rules) (ctx : Context) (d : Declaration) : Reader (List String) := do
  let vars ← declarators r ctx d
  require (vars.all d.allows)
  endStatement
  return vars.flatMap fun v => v.declared.names

/-- Whether the name of a variable is on the line of the word before it. -/
def namesVariable (l : Lexeme) : Bool :=
  l.token.isBindingWord && !l.newline

/-- How many words a declaration with `using` begins with here, or zero if none does. In the head of
a loop, `of` does not name the variable. -/
def usingWords (loop : Bool) : Reader Nat := do
  let names (l : Lexeme) : Bool := namesVariable l && !(loop && isKeyword "of" l.token)
  match ← ahead 2 with
  | [a, b] =>
    if (← atWord "using") && names a then return 1
    else if (← atWord "await") && isKeyword "using" a.token && !a.newline && names b then return 2
    else return 0
  | _ => return 0

/-- Moves over so many tokens. -/
def advanceBy : Nat → Reader Unit
  | 0 => return ()
  | n + 1 => do
    advance
    advanceBy n

/-- A declared function from its keyword on, which has a name unless it is the default export. -/
def functionDeclaration (r : Rules) (ctx : Context) (async named : Bool) :
    Reader (Option String) := do
  expectWord "function"
  let name? ← functionAfterKeyword r ctx async false
  require (name?.isSome || !named)
  return name?

/-- Whether an asynchronous function begins here. -/
def atAsyncFunction : Reader Bool := do
  let after ← lookahead
  return (← atWord "async") && isKeyword "function" after.token && !after.newline

/-- A declared class from its keyword on. -/
def classDeclaration (r : Rules) (ctx : Context) : Reader (Option String) := do
  expectWord "class"
  classAfterKeyword r ctx

end UiTemplate.Script
