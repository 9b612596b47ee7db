import UiTemplate.Script.Grammar.Declaration

/-!
# Imports and exports

A script may import names of other modules and export its own. No two exports have one name.
-/

namespace UiTemplate.Script

open Reader

/-! ## Modules -/

/-- A string. -/
def stringLiteral : Reader Unit := do
  match ← token with
  | .str _ => advance
  | _ => fail

/-- An entry such as `type: 'json'` of the attributes of a module. -/
def moduleAttribute : Reader Unit := do
  match ← token with
  | .word .. | .str _ =>
    advance
    expect .colon
    stringLiteral
  | _ => fail

/-- The attributes of a module, if there are any. -/
def moduleAttributes : Reader Unit := do
  if (← atWord "with") || ((← atWord "assert") && !(← newline)) then
    advance
    expect .leftBrace
    let _ ← delimited .rightBrace moduleAttribute

/-- The module after `from`, up to the end of the statement. -/
def fromModule : Reader Unit := do
  expectWord "from"
  stringLiteral
  moduleAttributes
  endStatement

/-- The name under which a module exports something: a word or a string. -/
inductive ExportName where
  | word (name : String)
  | str (name : String)

/-- The text of the name. -/
def ExportName.text : ExportName → String
  | word name => name
  | str name => name

/-- Whether the name can stand for a variable of the script. -/
def ExportName.isVariable : ExportName → Bool
  | word name => isBindingWord name
  | str _ => false

/-- The name of an export. -/
def exportedName : Reader ExportName := do
  match ← token with
  | .word name _ =>
    advance
    return .word name
  | .str name =>
    advance
    return .str name
  | _ => fail

/-! ## Imports -/

/-- The name of an import in the script. -/
def localName (ctx : Context) : Reader Unit := do
  match ← token with
  | .word name _ =>
    require (ctx.isName name)
    advance
  | _ => fail

/-- A named import, such as `a` or `a as b`. -/
def importItem (ctx : Context) : Reader Unit := do
  let name ← exportedName
  if ← eatWord "as" then localName ctx
  else match name with
    | .word name => require (ctx.isName name)
    | .str _ => fail

/-- Everything that a module exports, or some of it by name. -/
def importItems (ctx : Context) : Reader Unit := do
  if ← eat .star then
    expectWord "as"
    localName ctx
  else
    expect .leftBrace
    let _ ← delimited .rightBrace (importItem ctx)

/-- An import from its first name on, and what can follow that. -/
def defaultImport (ctx : Context) : Reader Unit := do
  localName ctx
  if ← eat .comma then importItems ctx

/-- Whether the current token is the phase of an import. The phase `defer` is followed by a star,
and `source` by a name. -/
def atPhase : Reader Bool := do
  match ← ahead 2 with
  | [a, b] =>
    let named := a.token.isBindingWord && (!isKeyword "from" a.token || isKeyword "from" b.token)
    return ((← atWord "defer") && isPunct .star a.token) || ((← atWord "source") && named)
  | _ => return false

/-- An import after its keyword. -/
def importRest (ctx : Context) : Reader Unit := do
  match ← token with
  | .str _ =>
    advance
    moduleAttributes
    endStatement
  | _ =>
    let phase ← atPhase
    if phase then advance
    match ← token with
    | .word .. => defaultImport ctx
    | _ => importItems ctx
    fromModule

/-! ## Exports -/

/-- A named export: the name in the script, and the name of the export. -/
def exportItem : Reader (ExportName × ExportName) := do
  let inside ← exportedName
  if ← eatWord "as" then return (inside, ← exportedName)
  else return (inside, inside)

/-- Named exports from their brace on. Those of this module are its variables. -/
def exportItems : Reader Unit := do
  expect .leftBrace
  let (items, _) ← delimited .rightBrace exportItem
  exportNames (items.map fun item => item.2.text)
  if ← atWord "from" then fromModule
  else
    require (items.all fun item => item.1.isVariable)
    endStatement

/-- The export of everything that another module exports, from its star on. -/
def exportAll : Reader Unit := do
  expect .star
  if ← eatWord "as" then
    exportName (← exportedName).text
  fromModule

/-- An exported class. Its decorators stand before `export` or after it. -/
def exportedClass (r : Rules) (ctx : Context) (decorated : Bool) : Reader (Option String) := do
  let after ← decorators r ctx
  require !(decorated && after)
  classDeclaration r ctx

/-- The default export after its keyword: a function, a class or a value. -/
def exportDefault (r : Rules) (ctx : Context) (decorated : Bool) : Reader Unit := do
  exportName "default"
  if decorated || (← at? .atSign) || (← atWord "class") then
    let _ ← exportedClass r ctx decorated
  else if ← atWord "function" then
    let _ ← functionDeclaration r ctx false false
  else if ← atAsyncFunction then
    advance
    let _ ← functionDeclaration r ctx true false
  else
    let _ ← r.assignment ctx
    endStatement

/-- The declaration that an export is, with the names that it declares. -/
def exportedDeclaration (r : Rules) (ctx : Context) (decorated : Bool) : Reader (List String) := do
  if decorated || (← at? .atSign) || (← atWord "class") then
    return (← exportedClass r ctx decorated).toList
  else if ← atWord "function" then
    return (← functionDeclaration r ctx false true).toList
  else if ← atAsyncFunction then
    advance
    return (← functionDeclaration r ctx true true).toList
  else if ← eatWord "var" then declarationRest r ctx .var
  else if ← eatWord "let" then declarationRest r ctx .block
  else if ← eatWord "const" then declarationRest r ctx .const
  else fail

/-- An export after its keyword. Decorators before the keyword belong to a class. -/
def exportRest (r : Rules) (ctx : Context) (decorated : Bool) : Reader Unit := do
  if ← eatWord "default" then exportDefault r ctx decorated
  else if (← at? .star) && !decorated then exportAll
  else if (← at? .leftBrace) && !decorated then exportItems
  else exportNames (← exportedDeclaration r ctx decorated)

end UiTemplate.Script
