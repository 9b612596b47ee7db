import UiTemplate.Script.Grammar.Module

/-!
# Statements

The statements of a script and of a function body. Only expressions and returns are of use to a
template; every other statement is read to its end and then forgotten. A statement that stands
alone, as the body of a loop does, declares neither classes nor variables of a block, and of
functions only the plain ones.
-/

namespace UiTemplate.Script

open Reader

/-- A condition in parentheses. -/
def condition (r : Rules) (ctx : Context) : Reader Unit := do
  expect .leftParen
  let _ ← expression r ctx
  expect .rightParen

/-- A statement that stands alone. -/
def embedded (r : Rules) (ctx : Context) : Reader Unit := do
  let _ ← r.statement ctx true

/-! ## Loops -/

/-- An expression unless the punctuator comes at once; the punctuator is taken. -/
def optionalExpression (r : Rules) (ctx : Context) (close : Punct) : Reader Unit := do
  if !(← at? close) then
    let _ ← expression r ctx.inner
  expect close

/-- The test and the step of a counting loop, from the semicolon after its start on. -/
def countingRest (r : Rules) (ctx : Context) (awaited : Bool) : Reader Unit := do
  require !awaited
  expect .semicolon
  optionalExpression r ctx .semicolon
  optionalExpression r ctx .rightParen

/-- The collection that a loop runs over, from `in` or `of` on. -/
def collectionRest (r : Rules) (ctx : Context) (awaited : Bool) : Reader Unit := do
  if ← eatWord "of" then
    let _ ← r.assignment ctx
  else
    require !awaited
    expectWord "in"
    let _ ← expression r ctx
  expect .rightParen

/-- Whether a loop over a collection goes on here. -/
def atCollection : Reader Bool :=
  return (← atWord "of") || (← atWord "in")

/-- The head of a loop that declares variables, after the keyword of the declaration. -/
def declaringHead (r : Rules) (ctx : Context) (awaited : Bool) (d : Declaration) : Reader Unit := do
  let vars ← declarators r { ctx with noIn := true } d
  if ← atCollection then
    require !(d == .using && (← atWord "in"))
    collectionRest r ctx awaited
  else
    require (vars.all d.allowsInLoop)
    countingRest r ctx awaited

/-- The head of a loop that begins with an expression. Over the items of a collection runs neither a
target that begins with `let`, nor `async` unless they are waited for. -/
def expressionHead (r : Rules) (ctx : Context) (awaited : Bool) : Reader Unit := do
  let viaLet ← atWord "let"
  let viaAsync := (← atWord "async") && isKeyword "of" (← lookahead).token
  let t ← expression r { ctx with noIn := true }
  if ← atCollection then
    match t.target? Term.isPlace with
    | none => fail
    | some n =>
      settle n
      require !((← atWord "of") && (viaLet || (viaAsync && !awaited)))
      collectionRest r ctx awaited
  else countingRest r ctx awaited

/-- Whether `let` declares variables in the head of a loop, by the token after it. -/
def letDeclaresInLoop : Token → Bool
  | .word name _ => name != "in"
  | .punct .leftBracket => true
  | .punct .leftBrace => true
  | _ => false

/-- The head of a `for` loop, in parentheses. -/
def forHead (r : Rules) (ctx : Context) : Reader Unit := do
  let awaited ← eatWord "await"
  require (!awaited || ctx.await)
  expect .leftParen
  let disposing ← usingWords true
  if ← at? .semicolon then countingRest r ctx awaited
  else if ← eatWord "var" then declaringHead r ctx awaited .var
  else if ← eatWord "const" then declaringHead r ctx awaited .const
  else if (← atWord "let") && letDeclaresInLoop (← lookahead).token then
    advance
    declaringHead r ctx awaited .block
  else if disposing != 0 then
    advanceBy disposing
    declaringHead r ctx awaited .using
  else expressionHead r ctx awaited

/-! ## Switches, handlers and jumps -/

/-- Whether a clause of a `switch` ends here. -/
def atClauseEnd : Reader Bool :=
  return (← at? .rightBrace) || (← atWord "case") || (← atWord "default")

/-- A clause of a `switch`: its label and its statements. -/
def switchClause (r : Rules) (ctx : Context) : Reader Unit := do
  if ← eatWord "case" then
    let _ ← expression r ctx
  else expectWord "default"
  expect .colon
  repeatFrom () fun _ => do
    if ← atClauseEnd then return .inr ()
    else
      let _ ← r.statement ctx false
      return .inl ()

/-- The clauses of a `switch`, from its opening brace on. -/
def switchClauses (r : Rules) (ctx : Context) : Reader Unit := do
  expect .leftBrace
  repeatFrom () fun _ => do
    if ← eat .rightBrace then return .inr ()
    else
      switchClause r ctx
      return .inl ()

/-- A `try` after its keyword. -/
def tryRest (r : Rules) (ctx : Context) : Reader Unit := do
  let _ ← block r ctx
  let caught ← eatWord "catch"
  if caught then
    if ← eat .leftParen then
      let _ ← r.binding ctx
      expect .rightParen
    let _ ← block r ctx
  let final ← eatWord "finally"
  if final then
    let _ ← block r ctx
  require (caught || final)

/-- A jump after its keyword, with an optional label on the same line. -/
def jumpRest (ctx : Context) : Reader Unit := do
  match ← token with
  | .word name _ =>
    if !(← newline) then
      require (ctx.isName name)
      advance
  | _ => pure ()
  endStatement

/-- A `return` after its keyword. -/
def returnRest (r : Rules) (ctx : Context) : Reader Statement := do
  require ctx.body
  let bare ← match ← token with
    | .eof => pure true
    | .punct .semicolon => pure true
    | .punct .rightBrace => pure true
    | _ => newline
  if bare then
    endStatement
    return .ret none
  else
    let t ← expression r ctx.inner
    endStatement
    return .ret (some t)

/-! ## Expressions and labels -/

/-- An expression as a statement. -/
def expressionStatement (r : Rules) (ctx : Context) : Reader Statement := do
  let t ← expression r ctx
  endStatement
  return .expression t

/-- A statement that begins with an expression. A name before a colon is the label of the statement
that follows. -/
def labelOrExpression (r : Rules) (ctx : Context) : Reader Statement := do
  let t ← expression r ctx
  match t with
  | .ident .. =>
    if ← eat .colon then
      embedded r ctx
      return .other
    else
      endStatement
      return .expression t
  | _ =>
    endStatement
    return .expression t

/-- Whether a token is an assignment or an operator whose operands are both evaluated. -/
def continuesLet (ctx : Context) : Token → Bool
  | .punct .assign => true
  | .punct .assignWith => true
  | .punct .slashAssign => true
  | t =>
    match operator? { ctx with noIn := false } t with
    | some (.binary _, _) => true
    | _ => false

/-- A statement that begins with `let`: an expression if an operator, a member or a call follows,
the name alone before a semicolon, and a declaration otherwise. -/
def letStatement (r : Rules) (ctx : Context) (alone : Bool) : Reader Statement := do
  let after := (← lookahead).token
  if continuesLet ctx after then
    let t ← r.assignment ctx
    endStatement
    return .expression t
  else if isPunct .dot after || isPunct .leftParen after then expressionStatement r ctx
  else if isPunct .semicolon after || (alone && !isPunct .leftBracket after) then
    let t ← nameTerm ctx "let"
    endStatement
    return .expression t
  else
    require !alone
    advance
    let _ ← declarationRest r ctx .block
    return .other

/-! ## Statements -/

/-- A statement that begins with the given word and has no expression to keep. `none` if no
statement begins with it. -/
def keywordStatement (r : Rules) (ctx : Context) (alone : Bool) (word : String) :
    Option (Reader Unit) :=
  match word with
  | "if" => some do
    advance
    condition r ctx
    embedded r ctx
    if ← eatWord "else" then
      embedded r ctx
  | "while" => some do
    advance
    condition r ctx
    embedded r ctx
  | "with" => some do
    advance
    condition r ctx
    embedded r ctx
  | "do" => some do
    advance
    embedded r ctx
    expectWord "while"
    condition r ctx
    let _ ← eat .semicolon
  | "for" => some do
    advance
    forHead r ctx
    embedded r ctx
  | "switch" => some do
    advance
    condition r ctx
    switchClauses r ctx
  | "try" => some do
    advance
    tryRest r ctx
  | "throw" => some do
    advance
    require !(← newline)
    let _ ← expression r ctx
    endStatement
  | "break" => some do
    advance
    jumpRest ctx
  | "continue" => some do
    advance
    jumpRest ctx
  | "debugger" => some do
    advance
    endStatement
  | "var" => some do
    advance
    let _ ← declarationRest r ctx .var
  | "const" => some do
    require !alone
    advance
    let _ ← declarationRest r ctx .const
  | "function" => some do
    require !(alone && isPunct .star (← lookahead).token)
    let _ ← functionDeclaration r ctx false true
  | "class" => some do
    require !alone
    let _ ← classDeclaration r ctx
  | "export" => some do
    advance
    exportRest r ctx false
  | _ => none

/-- Whether an expression goes on after `import`, the current token. -/
def atImportTerm : Reader Bool := do
  let after := (← lookahead).token
  return isPunct .dot after || isPunct .leftParen after

/-- A statement that begins with a word. -/
def wordStatement (r : Rules) (ctx : Context) (alone : Bool) (word : String) :
    Reader Statement := do
  let disposing ← usingWords false
  if word == "return" then
    advance
    returnRest r ctx
  else if word == "let" then letStatement r ctx alone
  else if ← atAsyncFunction then
    require !alone
    advance
    let _ ← functionDeclaration r ctx true true
    return .other
  else if disposing != 0 then
    advanceBy disposing
    let _ ← declarationRest r ctx .using
    return .other
  else if word == "import" && !(← atImportTerm) then
    advance
    importRest ctx
    return .other
  else match keywordStatement r ctx alone word with
    | some read =>
      read
      return .other
    | none => labelOrExpression r ctx

/-- A class with decorators, which may be exported. -/
def decoratedStatement (r : Rules) (ctx : Context) (alone : Bool) : Reader Unit := do
  let _ ← decorators r ctx
  if ← eatWord "export" then exportRest r ctx true
  else
    require !alone
    let _ ← classDeclaration r ctx

/-- A statement. -/
def statementTerm (r : Rules) (ctx : Context) (alone : Bool) : Reader Statement := do
  match ← token with
  | .punct .leftBrace =>
    let _ ← block r ctx
    return .other
  | .punct .semicolon =>
    advance
    return .other
  | .punct .atSign =>
    decoratedStatement r ctx alone
    return .other
  | .word word false => wordStatement r ctx alone word
  | _ => labelOrExpression r ctx

end UiTemplate.Script
