import UiTemplate.Script.Rules

/-!
# Functions

Patterns, parameters and bodies of functions. A template has no use for what they contain, except
for the statements of an arrow's body; the rest is read to tell whether a text is a script.
-/

namespace UiTemplate.Script

open Reader

/-! ## Keys and values -/

/-- A value after an equals sign, if there is one; the result tells whether there was. -/
def optionalValue (r : Rules) (ctx : Context) : Reader Bool := do
  if ← eat .assign then
    let _ ← r.assignment ctx
    return true
  else return false

/-- The key of a field or member: its text unless it is computed or a big integer, and whether it is
computed. -/
def propertyKey (r : Rules) (ctx : Context) (number : Float → String) :
    Reader (Option String × Bool) := do
  match ← token with
  | .word name _ =>
    advance
    return (some name, false)
  | .str s =>
    advance
    return (some s, false)
  | .number x =>
    advance
    return (some (number x), false)
  | .bigint =>
    advance
    return (none, false)
  | .punct .leftBracket =>
    advance
    let _ ← r.assignment ctx.inner
    expect .rightBracket
    return (none, true)
  | _ => fail

/-- Whether the name of a field or member begins with the token. -/
def Token.beginsKey : Token → Bool
  | .word .. => true
  | .str _ => true
  | .number _ => true
  | .bigint => true
  | .privateName _ => true
  | .punct p => p == .leftBracket
  | _ => false

/-! ## Patterns -/

/-- A rest element is the last one, without a comma after it. -/
def restIsLast (rests : List Bool) (trailing : Bool) : Bool :=
  match rests.reverse with
  | [] => true
  | last :: before => !before.contains true && !(last && trailing)

/-- An item of a list pattern: a hole, a rest element or a pattern with an optional value. A hole
leaves the comma after it. The result has the names in the item and tells whether it is the rest
element. -/
def bindingElement (r : Rules) (ctx : Context) : Reader (List String × Bool) := do
  if ← at? .comma then return ([], false)
  else if ← eat .ellipsis then
    let d ← r.binding ctx
    return (d.names, true)
  else
    let d ← r.binding ctx
    let _ ← optionalValue r ctx.inner
    return (d.names, false)

/-- A property of an object pattern, of which the rest property is a name alone. -/
def bindingProperty (r : Rules) (ctx : Context) : Reader (List String × Bool) := do
  if ← eat .ellipsis then
    let d ← r.binding ctx
    require d.plain
    return (d.names, true)
  else
    let name? := match ← token with
      | .word name _ => if ctx.isName name then some name else none
      | _ => none
    let _ ← propertyKey r ctx fun _ => ""
    if ← eat .colon then
      let d ← r.binding ctx
      let _ ← optionalValue r ctx.inner
      return (d.names, false)
    else match name? with
      | none => fail
      | some name =>
        let _ ← optionalValue r ctx.inner
        return ([name], false)

/-- The names in the items of a pattern up to its closing punctuator. -/
def patternItems (close : Punct) (item : Reader (List String × Bool)) : Reader Declared := do
  let (items, trailing) ← delimited close item
  require (restIsLast (items.map Prod.snd) trailing)
  return ⟨items.flatMap Prod.fst, false⟩

/-- A parameter or declared name, or a pattern of them. -/
def bindingPattern (r : Rules) (ctx : Context) : Reader Declared := do
  match ← token with
  | .word name _ =>
    require (ctx.isName name)
    advance
    return ⟨[name], true⟩
  | .punct .leftBracket =>
    advance
    patternItems .rightBracket (bindingElement r ctx)
  | .punct .leftBrace =>
    advance
    patternItems .rightBrace (bindingProperty r ctx)
  | _ => fail

/-! ## Parameters -/

/-- The parameters of a function: the names of those that are names alone, and whether a rest
parameter follows. -/
structure Parameters where
  names : List (Option String)
  rest : Bool

/-- A parameter; the result tells whether it is the rest parameter. -/
def parameter (r : Rules) (ctx : Context) : Reader (Option String × Bool) := do
  if ← eat .ellipsis then
    let d ← r.binding ctx
    return (d.name?, true)
  else
    let d ← r.binding ctx
    let _ ← optionalValue r ctx.inner
    return (d.name?, false)

/-- Parameters in parentheses. -/
def parameters (r : Rules) (ctx : Context) : Reader Parameters := do
  expect .leftParen
  let (items, trailing) ← delimited .rightParen (parameter r ctx)
  require (restIsLast (items.map Prod.snd) trailing)
  return ⟨(items.filter fun p => !p.2).map Prod.fst, items.any Prod.snd⟩

/-- A function that stands for a property. -/
inductive Accessor where
  | get
  | set
  deriving DecidableEq, Repr

/-- Whether the accessor can have the parameters: one to read has none but a rest parameter, one to
write has a single one. -/
def Accessor.takes (a : Accessor) (p : Parameters) : Bool :=
  match a with
  | get => p.names.isEmpty
  | set => p.names.length == 1 && !p.rest

/-- The accessor that begins here, because its keyword is followed by a name. -/
def accessor? : Reader (Option Accessor) := do
  let named := (← lookahead).token.beginsKey
  if (← atWord "get") && named then return some .get
  else if (← atWord "set") && named then return some .set
  else return none

/-! ## Bodies -/

/-- A statement that is a string alone, as directives at the top of a body are. -/
def Statement.isDirective : Statement → Bool
  | .expression (.str _) => true
  | _ => false

/-- Statements up to a closing brace, which is taken. -/
def block (r : Rules) (ctx : Context) : Reader (List Statement) := do
  expect .leftBrace
  repeatFrom [] fun statements => do
    if ← eat .rightBrace then return .inr statements.reverse
    else
      let s ← r.statement ctx false
      return .inl (s :: statements)

/-- The body of a function: its statements without the directives at its top. -/
def functionBody (r : Rules) (ctx : Context) : Reader (List Statement) := do
  return (← block r ctx).dropWhile Statement.isDirective

/-- Parameters and body of a function; the result has the parameters. -/
def functionRest (r : Rules) (async generator : Bool) : Reader Parameters := do
  let ctx := Context.function async generator
  let params ← parameters r ctx
  let _ ← functionBody r ctx
  return params

/-- The parameters and body of an accessor. -/
def accessorRest (r : Rules) (a : Accessor) : Reader Unit := do
  let params ← functionRest r false false
  require (a.takes params)

/-- A function after its keyword; the result is its name. A function that is a value has its name
inside itself. -/
def functionAfterKeyword (r : Rules) (ctx : Context) (async value : Bool) :
    Reader (Option String) := do
  let generator ← eat .star
  let outer := if value then Context.function async generator else ctx
  let name? ← match ← token with
    | .word name _ => do
      require (outer.isName name)
      advance
      pure (some name)
    | _ => pure none
  let _ ← functionRest r async generator
  return name?

end UiTemplate.Script
