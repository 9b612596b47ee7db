import UiTemplate.Script.Term

/-!
# Expression trees

The expressions a template may contain, and how a term of a script becomes one. On the way the
names that a term refers to are collected with their places: those are the names that rendering
reads off the rendering context.
-/

namespace UiTemplate

open Script

/-- An expression of a template. A property read by name is one whose key is a string. -/
inductive Expr where
  | null
  | bool (value : Bool)
  | number (value : Float)
  | str (value : String)
  | template (quasis : List String) (holes : List Expr)
  | ident (name : String)
  | member (object property : Expr)
  | unary (op : UnaryOp) (argument : Expr)
  | binary (op : BinaryOp) (left right : Expr)
  | logical (op : LogicalOp) (left right : Expr)
  | conditional (test consequent alternate : Expr)
  | array (items : List Expr)
  | object (fields : List (String × Expr))
  | call (callee : Expr) (arguments : List Expr)
  | arrow (params : List String) (body : List Expr)
  | assign (target value : Expr)
  | update (target : Expr)
  | sequence (items : List Expr)
  deriving Inhabited

/-- A place at which an expression refers to a name that no arrow function around it binds: the byte
offsets of its first character and of the character after it, and whether the name stands for a
field of an object as well. -/
structure Reference where
  name : String
  start : Nat
  stop : Nat
  shorthand : Bool
  deriving DecidableEq, Repr

/-- What a template's expressions may not contain. -/
inductive Unsupported where
  | spreadOrHole
  | objectSpread
  | computedOrMethod
  | propertyKey
  | spreadArgument
  | destructuredParameter
  | arrowStatement
  | destructuringAssignment
  | updateTarget
  | form (f : Form)
  deriving DecidableEq, Repr

/-- How the unsupported part is called. -/
def Unsupported.name : Unsupported → String
  | spreadOrHole => "array spread or hole"
  | objectSpread => "object spread"
  | computedOrMethod => "computed or method property"
  | propertyKey => "property key"
  | spreadArgument => "spread argument"
  | destructuredParameter => "destructured parameter"
  | arrowStatement => "statement in arrow body"
  | destructuringAssignment => "destructuring assignment"
  | updateTarget => "update target"
  | form .optionalChain => "optional chaining"
  | form .this => "`this`"
  | form .new => "`new`"
  | form .function => "function expression"
  | form .await => "this expression form"
  | form .privateIn => "this expression form"
  | form .importCall => "this expression form"
  | form .unusual => "this expression form"

/-- An unsupported part with the byte offset at which the expression that contains it starts. -/
structure Fault where
  what : Unsupported
  offset : Nat
  deriving DecidableEq, Repr

namespace Expr

/-- The fault at a term that starts at byte `start` of a script, of which the expression lies one
byte further on, inside a parenthesis. -/
def faultAt (what : Unsupported) (start : Nat) : Fault :=
  ⟨what, start - 1⟩

/-- The reference at a name, unless an arrow function binds the name. -/
def referenceAt (bound : List String) (name : String) (start stop : Nat) : List Reference :=
  if bound.contains name then [] else [⟨name, start - 1, stop - 1, false⟩]

/-- The references in a field written as a name alone. -/
def asShorthand : List Reference → List Reference
  | [r] => [{ r with shorthand := true }]
  | refs => refs

/-- A term that names a variable or a property, in any number of parentheses. -/
def isVariable : Term → Bool
  | .ident .. => true
  | .member .. => true
  | .index .. => true
  | .paren t => isVariable t
  | _ => false

mutual

/-- The expression of a term, with the references in it in the order in which they are written.
`bound` holds the parameters of the arrow functions around the term. -/
def ofTerm (bound : List String) : Term → Except Fault (Expr × List Reference)
  | .null => .ok (.null, [])
  | .bool b => .ok (.bool b, [])
  | .number x => .ok (.number x, [])
  | .str s => .ok (.str s, [])
  | .template quasis holes => do
    let (holes, refs) ← ofTerms bound holes
    .ok (.template quasis holes, refs)
  | .ident name start stop => .ok (.ident name, referenceAt bound name start stop)
  | .member owner name => do
    let (e, refs) ← ofTerm bound owner
    .ok (.member e (.str name), refs)
  | .index owner key => do
    let (e, refs) ← ofTerm bound owner
    let (k, refs') ← ofTerm bound key
    .ok (.member e k, refs ++ refs')
  | .unary op argument => do
    let (argument, refs) ← ofTerm bound argument
    .ok (.unary op argument, refs)
  | .binary op left right => do
    let (left, refs) ← ofTerm bound left
    let (right, refs') ← ofTerm bound right
    .ok (.binary op left right, refs ++ refs')
  | .logical op left right => do
    let (left, refs) ← ofTerm bound left
    let (right, refs') ← ofTerm bound right
    .ok (.logical op left right, refs ++ refs')
  | .conditional test consequent alternate => do
    let (test, refs) ← ofTerm bound test
    let (consequent, refs') ← ofTerm bound consequent
    let (alternate, refs'') ← ofTerm bound alternate
    .ok (.conditional test consequent alternate, refs ++ refs' ++ refs'')
  | .paren inner => ofTerm bound inner
  | .sequence items => do
    let (items, refs) ← ofTerms bound items
    .ok (.sequence items, refs)
  | .array start elements _ => do
    let (items, refs) ← ofElements bound (faultAt .spreadOrHole start) elements
    .ok (.array items, refs)
  | .object start properties _ => do
    let (fields, refs) ← ofProperties bound start properties
    .ok (.object fields, refs)
  | .call start callee arguments => do
    let (callee, refs) ← ofTerm bound callee
    let (arguments, refs') ← ofElements bound (faultAt .spreadArgument start) arguments
    .ok (.call callee arguments, refs ++ refs')
  | .arrow start params body =>
    match params.mapM id with
    | none => .error (faultAt .destructuredParameter start)
    | some names => do
      let (body, refs) ← ofStatements (names ++ bound) (faultAt .arrowStatement start) body
      .ok (.arrow names body, refs)
  | .assign start _ target value =>
    if isVariable target then do
      let (target, refs) ← ofTerm bound target
      let (value, refs') ← ofTerm bound value
      .ok (.assign target value, refs ++ refs')
    else .error (faultAt .destructuringAssignment start)
  | .update start target =>
    if isVariable target then do
      let (target, refs) ← ofTerm bound target
      .ok (.update target, refs)
    else .error (faultAt .updateTarget start)
  | .privateMember start => .error (faultAt (.form .unusual) start)
  | .other form start => .error (faultAt (.form form) start)

/-- The expressions of terms, with the references in them. -/
def ofTerms (bound : List String) : List Term → Except Fault (List Expr × List Reference)
  | [] => .ok ([], [])
  | t :: rest => do
    let (e, refs) ← ofTerm bound t
    let (es, refs') ← ofTerms bound rest
    .ok (e :: es, refs ++ refs')

/-- The expressions of items, none of which may be spread or missing. -/
def ofElements (bound : List String) (fault : Fault) :
    List Element → Except Fault (List Expr × List Reference)
  | [] => .ok ([], [])
  | .item t :: rest => do
    let (e, refs) ← ofTerm bound t
    let (es, refs') ← ofElements bound fault rest
    .ok (e :: es, refs ++ refs')
  | .spread _ :: _ => .error fault
  | .hole :: _ => .error fault

/-- The fields of an object that starts at byte `start`. -/
def ofProperties (bound : List String) (start : Nat) :
    List Property → Except Fault (List (String × Expr) × List Reference)
  | [] => .ok ([], [])
  | .spread _ :: _ => .error (faultAt .objectSpread start)
  | .field key computed method shorthand _ value :: rest =>
    if computed || method then .error (faultAt .computedOrMethod start)
    else match key with
      | none => .error (faultAt .propertyKey start)
      | some key => do
        let (e, refs) ← ofTerm bound value
        let (fields, refs') ← ofProperties bound start rest
        .ok ((key, e) :: fields, (if shorthand then asShorthand refs else refs) ++ refs')

/-- The expressions of an arrow function's statements. A return without a value gives back
`undefined`. -/
def ofStatements (bound : List String) (fault : Fault) :
    List Statement → Except Fault (List Expr × List Reference)
  | [] => .ok ([], [])
  | .expression t :: rest => do
    let (e, refs) ← ofTerm bound t
    let (es, refs') ← ofStatements bound fault rest
    .ok (e :: es, refs ++ refs')
  | .ret (some t) :: rest => do
    let (e, refs) ← ofTerm bound t
    let (es, refs') ← ofStatements bound fault rest
    .ok (e :: es, refs ++ refs')
  | .ret none :: rest => do
    let (es, refs) ← ofStatements bound fault rest
    .ok (.ident "undefined" :: es, refs)
  | .other :: _ => .error fault

end

end Expr

end UiTemplate
