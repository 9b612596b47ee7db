import UiTemplate.Json.Coercion
import UiTemplate.Script.Grammar.Class

/-!
# Expressions

The grammar of expressions from literals up to assignments. Operators of equal rank group to the
left, the power operator to the right; `??` does not mix with `||` and `&&`, and an operand of `**`
has no operator in front.
-/

namespace UiTemplate.Script

open Reader

/-- Expressions separated by commas. -/
def expression (r : Rules) (ctx : Context) : Reader Term := do
  let first ← r.assignment ctx
  if !(← at? .comma) then return first
  else repeatFrom [first] fun items => do
    if ← eat .comma then
      let t ← r.assignment ctx
      return .inl (t :: items)
    else return .inr (.sequence items.reverse)

/-! ## Literals -/

/-- The holes and chunks of a template literal after its first chunk; the text goes on after the
brace that closes a hole. A chunk is missing if an escape in it is invalid. -/
def templateRest (r : Rules) (ctx : Context) (first : Option String) :
    Reader (List (Option String) × List Term) :=
  repeatFrom ([first], []) fun (quasis, holes) => do
    let hole ← expression r ctx.inner
    let c ← get
    match c.current.token, scanQuasi (c.rest.length + 1) c.rest with
    | .punct .rightBrace, some q =>
      match q.token with
      | .quasi cooked last =>
        let (lexeme, rest) := next (c.current.stop + q.width) q.rest
        set { c with current := lexeme, rest := rest }
        if last then return .inr ((cooked :: quasis).reverse, (hole :: holes).reverse)
        else return .inl (cooked :: quasis, hole :: holes)
      | _ => fail
    | _, _ => fail

/-- A template literal: its chunks and holes. -/
def templateLiteral (r : Rules) (ctx : Context) (cooked : Option String) (last : Bool) :
    Reader (List (Option String) × List Term) := do
  advance
  if last then return ([cooked], []) else templateRest r ctx cooked

/-- A template literal with no function before it, in which every escape has to be valid. -/
def templateTerm (r : Rules) (ctx : Context) (cooked : Option String) (last : Bool) :
    Reader Term := do
  let (quasis, holes) ← templateLiteral r ctx cooked last
  match quasis.mapM id with
  | some quasis => return .template quasis holes
  | none => fail

/-- A regular expression; `lead` is the text of it that was taken for a punctuator after the
slash. -/
def regexTerm (lead : List Char) : Reader Term := do
  let c ← get
  match scanRegex (lead ++ c.rest) with
  | some (width, rest) =>
    let (lexeme, rest) := next (c.current.start + 1 + width) rest
    set { c with current := lexeme, rest := rest }
    return .other .unusual c.current.start
  | none => fail

/-- An item of a list in brackets. A hole leaves the comma after it. -/
def arrayElement (r : Rules) (ctx : Context) : Reader Element := do
  if ← at? .comma then return .hole
  else if ← eat .ellipsis then return .spread (← r.assignment ctx.inner)
  else return .item (← r.assignment ctx.inner)

/-- An item in parentheses. -/
def argument (r : Rules) (ctx : Context) : Reader Element := do
  if ← eat .ellipsis then return .spread (← r.assignment ctx.inner)
  else return .item (← r.assignment ctx.inner)

/-- A method from its parameters on, as a field. -/
def methodField (r : Rules) (key : Option String) (computed async generator : Bool) :
    Reader Property := do
  let paren ← Reader.start
  let _ ← functionRest r async generator
  return .field key computed true false false (.other .function paren)

/-- An accessor after its keyword, as a field. -/
def accessorField (r : Rules) (ctx : Context) (a : Accessor) : Reader Property := do
  advance
  let (key, computed) ← propertyKey r ctx Json.numberText
  let paren ← Reader.start
  accessorRest r a
  return .field key computed false false false (.other .function paren)

/-- Whether `async` begins here and belongs to the method that follows it on its line. -/
def atAsyncMethod : Reader Bool := do
  let after ← lookahead
  return (← atWord "async") && !after.newline &&
    (after.token.beginsKey || isPunct .star after.token)

/-- A field that is no accessor. -/
def plainField (r : Rules) (ctx : Context) : Reader Property := do
  let async ← atAsyncMethod
  if async then advance
  let generator ← eat .star
  let nameStart ← Reader.start
  let nameStop := (← get).current.stop
  let name? := match ← token with
    | .word name _ => if ctx.isName name then some name else none
    | _ => none
  let (key, computed) ← propertyKey r ctx Json.numberText
  if async || generator || (← at? .leftParen) then
    methodField r key computed async generator
  else if ← eat .colon then
    return .field key computed false false false (← r.assignment ctx.inner)
  else match name? with
    | none => fail
    | some name =>
      let initialized ← optionalValue r ctx.inner
      if initialized then modify fun c => { c with pending := c.pending + 1 }
      return .field key false false true initialized (.ident name nameStart nameStop)

/-- A property of an object. -/
def objectProperty (r : Rules) (ctx : Context) : Reader Property := do
  if ← eat .ellipsis then return .spread (← r.assignment ctx.inner)
  else match ← accessor? with
    | some a => accessorField r ctx a
    | none => plainField r ctx

/-! ## Subjects: literals, names, members and calls -/

/-- Items in parentheses; the result tells whether a comma follows the last of them. -/
def enclosed (r : Rules) (ctx : Context) : Reader (List Element × Bool) := do
  expect .leftParen
  delimited .rightParen (argument r ctx)

/-- The arguments of a call, in parentheses. -/
def arguments (r : Rules) (ctx : Context) : Reader (List Element) := do
  let (items, _) ← enclosed r ctx
  return items

/-- An expression in parentheses, with commas or without. -/
def groupTerm (r : Rules) (ctx : Context) : Reader Term := do
  let (items, trailing) ← enclosed r ctx
  match group? items trailing with
  | some t => return t
  | none => fail

/-- The arguments of an `import` call that starts at byte `start`. -/
def importCall (r : Rules) (ctx : Context) (start : Nat) : Reader Term := do
  expect .leftParen
  let (items, _) ← delimited .rightParen (r.assignment ctx.inner)
  require (items.length == 1 || items.length == 2)
  return .other .importCall start

/-- An `import` call or the description of the module. A call may name the phase to which it loads
the module. -/
def importTerm (r : Rules) (ctx : Context) : Reader Term := do
  let start ← Reader.start
  advance
  if ← eat .dot then
    match ← token with
    | .word "meta" false =>
      advance
      return .other .unusual start
    | .word "source" false | .word "defer" false =>
      advance
      importCall r ctx start
    | _ => fail
  else importCall r ctx start

/-- A `new` expression. It constructs neither an optional chain nor an `import` call. -/
def newTerm (r : Rules) (ctx : Context) : Reader Term := do
  let start ← Reader.start
  advance
  if ← eat .dot then
    expectWord "target"
    return .other .unusual start
  else
    match ← r.subject ctx with
    | .other .optionalChain _ => fail
    | .other .importCall _ => fail
    | _ =>
      if ← at? .leftParen then
        let _ ← arguments r ctx
      return .other .new start

/-- A name. -/
def nameTerm (ctx : Context) (name : String) : Reader Term := do
  require (ctx.isName name)
  let c ← get
  advance
  return .ident name c.current.start c.current.stop

/-- A term that begins with a word and is not a name, or a name. -/
def wordTerm (r : Rules) (ctx : Context) (name : String) : Reader Term := do
  let start ← Reader.start
  match name with
  | "null" =>
    advance
    return .null
  | "true" =>
    advance
    return .bool true
  | "false" =>
    advance
    return .bool false
  | "this" =>
    advance
    return .other .this start
  | "function" =>
    advance
    let _ ← functionAfterKeyword r ctx false true
    return .other .function start
  | "class" =>
    advance
    let _ ← classAfterKeyword r ctx
    return .other .unusual start
  | "new" => newTerm r ctx
  | "import" => importTerm r ctx
  | "super" =>
    advance
    match ← token with
    | .punct .dot | .punct .leftBracket | .punct .leftParen => return .other .unusual start
    | _ => fail
  | _ =>
    let after ← lookahead
    if name == "async" && isKeyword "function" after.token && !after.newline then
      advance
      advance
      let _ ← functionAfterKeyword r ctx true true
      return .other .function start
    else nameTerm ctx name

/-- A literal, a name or an expression that carries its own delimiters. -/
def primary (r : Rules) (ctx : Context) : Reader Term := do
  let start ← Reader.start
  match ← token with
  | .number x =>
    advance
    return .number x
  | .bigint =>
    advance
    return .other .unusual start
  | .str s =>
    advance
    return .str s
  | .quasi cooked last => templateTerm r ctx cooked last
  | .punct .leftBracket =>
    advance
    let (elements, trailing) ← delimited .rightBracket (arrayElement r ctx)
    return .array start elements trailing
  | .punct .leftBrace =>
    advance
    let (properties, trailing) ← delimited .rightBrace (objectProperty r ctx)
    return .object start properties trailing
  | .punct .leftParen => groupTerm r ctx
  | .punct .slash => regexTerm []
  | .punct .slashAssign => regexTerm ['=']
  | .punct .atSign =>
    let _ ← decorators r ctx
    expectWord "class"
    let _ ← classAfterKeyword r ctx
    return .other .unusual start
  | .word name escaped => if escaped then nameTerm ctx name else wordTerm r ctx name
  | _ => fail

/-- The member after a dot. -/
def dotMember (start : Nat) (object : Term) : Reader Term := do
  match ← token with
  | .word name _ =>
    advance
    return .member object name
  | .privateName _ =>
    advance
    return .privateMember start
  | _ => fail

/-- The member in brackets, from the opening one on. -/
def indexMember (r : Rules) (ctx : Context) (object : Term) : Reader Term := do
  expect .leftBracket
  let property ← expression r ctx.inner
  expect .rightBracket
  return .index object property

/-- Members and, if `calls` says so, calls after a term that starts at `start`. Once a link of the
chain is optional, the whole of it is an optional chain. -/
def chainRest (r : Rules) (ctx : Context) (calls : Bool) (start : Nat) (base : Term) :
    Reader Term :=
  repeatFrom (base, false) fun (t, optional) => do
    let done : (Term × Bool) ⊕ Term := .inr (if optional then .other .optionalChain start else t)
    match ← token with
    | .punct .dot =>
      advance
      return .inl (← dotMember start t, optional)
    | .punct .leftBracket =>
      if ctx.decorator then return done
      else return .inl (← indexMember r ctx t, optional)
    | .punct .questionDot =>
      match (← lookahead).token with
      | .punct .leftParen =>
        if calls then
          advance
          let _ ← arguments r ctx
          return .inl (t, true)
        else return done
      | .punct .leftBracket =>
        require (!ctx.decorator)
        advance
        return .inl (← indexMember r ctx t, true)
      | _ =>
        advance
        return .inl (← dotMember start t, true)
    | .punct .leftParen =>
      if calls then return .inl (.call start t (← arguments r ctx), optional)
      else return done
    | .quasi cooked last =>
      require (!optional)
      let _ ← templateLiteral r ctx cooked last
      return .inl (.other .unusual start, false)
    | _ => return done

/-- A term with its members, as it stands after `new`. -/
def subjectTerm (r : Rules) (ctx : Context) : Reader Term := do
  let start ← Reader.start
  chainRest r ctx false start (← primary r ctx)

/-- A term with its members and calls. -/
def chainTerm (r : Rules) (ctx : Context) : Reader Term := do
  let start ← Reader.start
  chainRest r ctx true start (← primary r ctx)

/-! ## Operators -/

/-- An increment or decrement after a term on the same line. -/
def incrementRest (start : Nat) (t : Term) : Reader Term := do
  match ← token with
  | .punct .increment | .punct .decrement =>
    if ← newline then return t
    else
      require t.isPlace
      advance
      return .update start t
  | _ => return t

/-- The operator that a token is in front of an operand. -/
def unaryOp? : Token → Option UnaryOp
  | .punct .bang => some .not
  | .punct .minus => some .neg
  | .punct .plus => some .plus
  | .punct .tilde => some .bitNot
  | .word "typeof" false => some .typeOf
  | .word "void" false => some .void
  | .word "delete" false => some .delete
  | _ => none

/-- Whether a token on the same line would be the operand of `await` or `yield`. -/
def isOperandStart (l : Lexeme) : Bool :=
  !l.newline && match l.token with
    | .word name _ => name != "in" && name != "instanceof"
    | .number _ | .bigint | .str _ => true
    | _ => false

/-- Whether a regular expression begins after the current token on the same line. -/
def regexAhead : Reader Bool := do
  let c ← get
  let (l, rest) := next c.current.stop c.rest
  return !l.newline && isPunct .slash l.token && (scanRegex rest).isSome

/-- An operand with the operators in front of it. -/
def unaryTerm (r : Rules) (ctx : Context) : Reader Term := do
  let start ← Reader.start
  let token ← Reader.token
  match unaryOp? token with
  | some op =>
    advance
    return .unary op (← r.unary ctx)
  | none =>
    match token with
    | .punct .increment | .punct .decrement =>
      advance
      let t ← r.unary ctx
      require t.isPlace
      return .update start t
    | _ =>
      if isKeyword "await" token && ctx.await then
        advance
        let _ ← r.unary ctx
        return .other .await start
      else
        if isKeyword "await" token then
          require !(isOperandStart (← lookahead) || (← regexAhead))
        incrementRest start (← chainTerm r ctx)

/-- An operator between two operands. -/
inductive Operator where
  | binary (op : BinaryOp)
  | logical (op : LogicalOp)

/-- The operator that a token is between two operands, with its rank. -/
def operator? (ctx : Context) : Token → Option (Operator × Nat)
  | .punct p =>
    match p with
    | .coalesce => some (.logical .coalesce, 1)
    | .orOr => some (.logical .or, 2)
    | .andAnd => some (.logical .and, 3)
    | .bitOr => some (.binary .bitOr, 4)
    | .bitXor => some (.binary .bitXor, 5)
    | .bitAnd => some (.binary .bitAnd, 6)
    | .equal => some (.binary .eq, 7)
    | .notEqual => some (.binary .notEq, 7)
    | .strictEqual => some (.binary .strictEq, 7)
    | .strictNotEqual => some (.binary .strictNotEq, 7)
    | .less => some (.binary .lt, 8)
    | .lessEq => some (.binary .ltEq, 8)
    | .greater => some (.binary .gt, 8)
    | .greaterEq => some (.binary .gtEq, 8)
    | .shiftLeft => some (.binary .shiftLeft, 9)
    | .shiftRight => some (.binary .shiftRight, 9)
    | .shiftRightZero => some (.binary .shiftRightZero, 9)
    | .plus => some (.binary .add, 10)
    | .minus => some (.binary .sub, 10)
    | .star => some (.binary .mul, 11)
    | .slash => some (.binary .div, 11)
    | .percent => some (.binary .rem, 11)
    | .power => some (.binary .pow, 12)
    | _ => none
  | .word "in" false => if ctx.noIn then none else some (.binary .isIn, 8)
  | .word "instanceof" false => some (.binary .instanceOf, 8)
  | _ => none

/-- A logical term that does not mix with `??`. -/
def Term.isAndOr : Term → Bool
  | .logical op _ _ => op != .coalesce
  | _ => false

/-- Whether an operator stands in front of the term, so that it cannot be raised to a power. -/
def Term.isUnary : Term → Bool
  | .unary .. => true
  | .other .await _ => true
  | _ => false

/-- The term of an operator between two operands, of which it is known whether they begin with a
parenthesis. For `??`, a logical right operand decides whether the operands mix, and the left one
otherwise; an operand that begins with a parenthesis does not. -/
def operatorTerm (op : Operator) (leftParen rightParen : Bool) (left right : Term) : Option Term :=
  match op with
  | .binary .pow => if left.isUnary then none else some (.binary .pow left right)
  | .binary op => some (.binary op left right)
  | .logical .coalesce =>
    let mixed := match right with
      | .logical .. => right.isAndOr && !rightParen
      | _ => left.isAndOr && !leftParen
    if mixed then none else some (.logical .coalesce left right)
  | .logical op => some (.logical op left right)

/-- The operators of a rank above `rank` after an operand, with their operands. -/
def binaryRest (r : Rules) (ctx : Context) (rank : Nat) (leftParen : Bool) (left : Term) :
    Reader Term :=
  repeatFrom left fun left => do
    match operator? ctx (← token) with
    | none => return .inr left
    | some (op, level) =>
      if level < rank || (level == rank && level != 12) then return .inr left
      else
        advance
        let rightParen ← at? .leftParen
        let right ← r.binary ctx level
        match operatorTerm op leftParen rightParen left right with
        | some t => return .inl t
        | none => fail

/-- A private name before `in`, but not before another such test. -/
def privateIn (r : Rules) (ctx : Context) : Reader Term := do
  let start ← Reader.start
  advance
  require (!ctx.noIn)
  expectWord "in"
  match ← r.binary ctx 8 with
  | .other .privateIn _ => fail
  | _ => return .other .privateIn start

/-- Operands with operators of a rank above `rank` between them. -/
def binaryTerm (r : Rules) (ctx : Context) (rank : Nat) : Reader Term := do
  let leftParen ← at? .leftParen
  match ← token with
  | .privateName _ => binaryRest r ctx rank leftParen (← privateIn r ctx)
  | _ => binaryRest r ctx rank leftParen (← unaryTerm r ctx)

/-! ## Arrows -/

/-- The body of an arrow function, from its arrow on. -/
def arrowRest (r : Rules) (ctx : Context) (start : Nat) (async : Bool)
    (params : List (Option String)) : Reader Term := do
  require !(← newline)
  expect .arrow
  let inside := { ctx with await := async, yield := false, body := true }
  if ← at? .leftBrace then
    return .arrow start params (← functionBody r inside)
  else
    return .arrow start params [.expression (← r.assignment inside)]

/-- The names of the parameters that items in parentheses are. Their patterns account for fields that
have come to the `before` pending ones since. -/
def headNames (before : Nat) (items : List Element) (trailing : Bool) :
    Reader (List (Option String)) := do
  match elementTargets? Term.isName trailing items with
  | none => fail
  | some n =>
    modify fun c => { c with pending := before + (c.pending - before - n) }
    return parameterNames items

/-! ## Assignments -/

/-- A conditional after its test, if there is one. -/
def conditionalRest (r : Rules) (ctx : Context) (test : Term) : Reader Term := do
  if ← eat .question then
    let consequent ← r.assignment ctx.inner
    expect .colon
    return .conditional test consequent (← r.assignment ctx)
  else return test

/-- An assignment from its operator on. -/
def assignRest (r : Rules) (ctx : Context) (start : Nat) (plain : Bool) (left : Term) :
    Reader Term := do
  match left.target? Term.isPlace with
  | none => fail
  | some n =>
    settle n
    advance
    return .assign start plain left (← r.assignment ctx)

/-- What can follow the operands of an expression: the arrow of a function with one parameter, an
assignment or a conditional. -/
def assignmentRest (r : Rules) (ctx : Context) (start : Nat) (left : Term) : Reader Term := do
  match ← token, left with
  | .punct .arrow, .ident name _ _ => arrowRest r ctx start false [some name]
  | .punct .assign, _ => assignRest r ctx start true left
  | .punct .assignWith, _ => assignRest r ctx start false left
  | .punct .slashAssign, _ => assignRest r ctx start false left
  | _, _ => conditionalRest r ctx left

/-- An expression that begins with an operand. -/
def operatorsTerm (r : Rules) (ctx : Context) : Reader Term := do
  let start ← Reader.start
  assignmentRest r ctx start (← binaryTerm r ctx 0)

/-- What follows the first term of an expression, which has been read and may go on as a chain. -/
def afterTerm (r : Rules) (ctx : Context) (start : Nat) (leftParen : Bool) (t : Term) :
    Reader Term := do
  let operand ← incrementRest start (← chainRest r ctx true start t)
  assignmentRest r ctx start (← binaryRest r ctx 0 leftParen operand)

/-- A `yield` expression. -/
def yieldTerm (r : Rules) (ctx : Context) : Reader Term := do
  let start ← Reader.start
  require ctx.yield
  advance
  if (← newline) then return .other .unusual start
  else if ← eat .star then
    let _ ← r.assignment ctx
    return .other .unusual start
  else match ← token with
    | .eof => return .other .unusual start
    | .punct p =>
      if [Punct.rightBrace, .rightParen, .rightBracket, .semicolon, .comma, .colon].contains p then
        return .other .unusual start
      else
        let _ ← r.assignment ctx
        return .other .unusual start
    | _ =>
      let _ ← r.assignment ctx
      return .other .unusual start

/-- An expression that begins with a parenthesis. The items in it are the parameters of a function if
an arrow follows. -/
def parenTerm (r : Rules) (ctx : Context) : Reader Term := do
  let start ← Reader.start
  let before := (← get).pending
  let (items, trailing) ← enclosed r ctx
  if ← at? .arrow then arrowRest r ctx start false (← headNames before items trailing)
  else match group? items trailing with
    | some t => afterTerm r ctx start true t
    | none => fail

/-- The parameters of an asynchronous function from its keyword up to its arrow. -/
def asyncHead (r : Rules) (ctx : Context) : Reader (List (Option String)) := do
  advance
  let before := (← get).pending
  let (items, trailing) ← enclosed r { ctx with await := true }
  require (← at? .arrow)
  headNames before items trailing

/-- Whether what seems to be a rest parameter stands after the current token. -/
def atRestParameter : Reader Bool := do
  match (← ahead 2).map Lexeme.token with
  | [.punct .ellipsis, .word name _] => return isBindingWord name && !contextualWords.contains name
  | _ => return false

/-- A call of the function `async`. It has neither an arrow after it nor what makes it look like the
head of a function: a rest parameter at its beginning, or a brace behind empty parentheses. -/
def asyncCall (r : Rules) (ctx : Context) : Reader Term := do
  let c ← get
  advance
  require !(← atRestParameter)
  let items ← arguments r ctx
  require !(← at? .arrow)
  require !(items.isEmpty && (← at? .leftBrace))
  return .call c.current.start (.ident "async" c.current.start c.current.stop) items

/-- An expression that begins with the word `async`, which may be a name. -/
def asyncTerm (r : Rules) (ctx : Context) : Reader Term := do
  let start ← Reader.start
  match ← ahead 2 with
  | [a, b] =>
    if a.newline then operatorsTerm r ctx
    else match a.token with
      | .punct .leftParen =>
        match ← attempt? (asyncHead r ctx) with
        | some params => arrowRest r ctx start true params
        | none => afterTerm r ctx start false (← asyncCall r ctx)
      | .word name _ =>
        if isBindingWord name && isPunct .arrow b.token then
          require ({ ctx with await := true }.isName name)
          advance
          advance
          arrowRest r ctx start true [some name]
        else operatorsTerm r ctx
      | _ => operatorsTerm r ctx
  | _ => fail

/-- An expression without commas at its top. -/
def assignmentTerm (r : Rules) (ctx : Context) : Reader Term := do
  match ← token with
  | .punct .leftParen => parenTerm r ctx
  | .word name false =>
    if name == "yield" && (ctx.yield || isOperandStart (← lookahead)) then yieldTerm r ctx
    else if name == "async" then asyncTerm r ctx
    else operatorsTerm r ctx
  | _ => operatorsTerm r ctx

end UiTemplate.Script
