import UiTemplate.Script.Operator

/-!
# Terms

What the grammar reads: an expression with everything that later readings of it need. Forms that no
template may contain keep their kind and their place only (`Term.other`); a node that can be at
fault keeps the byte offset at which it starts.

A list in brackets or an object in braces may turn out to be a pattern, once an assignment follows.
`Term.target?` decides whether it is one. Items in parentheses may turn out to be the parameters of a
function, once an arrow follows.
-/

namespace UiTemplate.Script

/-- A form that a script may have and a template may not. -/
inductive Form where
  | optionalChain
  | this
  | new
  | function
  | await
  /-- A test for a private name, such as `#x in y`. -/
  | privateIn
  | importCall
  | unusual
  deriving DecidableEq, Repr

mutual

/-- An expression as it is written. -/
inductive Term where
  | null
  | bool (value : Bool)
  | number (value : Float)
  | str (value : String)
  | template (quasis : List String) (holes : List Term)
  | ident (name : String) (start stop : Nat)
  | member (object : Term) (name : String)
  | index (object property : Term)
  | privateMember (start : Nat)
  | unary (op : UnaryOp) (argument : Term)
  | binary (op : BinaryOp) (left right : Term)
  | logical (op : LogicalOp) (left right : Term)
  | conditional (test consequent alternate : Term)
  | paren (inner : Term)
  | sequence (items : List Term)
  | array (start : Nat) (elements : List Element) (trailing : Bool)
  | object (start : Nat) (properties : List Property) (trailing : Bool)
  | call (start : Nat) (callee : Term) (arguments : List Element)
  /-- A parameter is `none` when it is a pattern. -/
  | arrow (start : Nat) (params : List (Option String)) (body : List Statement)
  /-- An assignment; `plain` for `=` itself. -/
  | assign (start : Nat) (plain : Bool) (target value : Term)
  | update (start : Nat) (target : Term)
  | other (form : Form) (start : Nat)

/-- An item of a list in brackets or parentheses. -/
inductive Element where
  | item (t : Term)
  | spread (t : Term)
  | hole

/-- A property of an object. -/
inductive Property where
  | spread (t : Term)
  /-- A field. Its key is missing if it is computed or a big integer. A field is `initialized` when
  it is written `name = value`, which only a pattern may contain. -/
  | field (key : Option String) (computed method shorthand initialized : Bool) (value : Term)

/-- A statement of a function body. -/
inductive Statement where
  | expression (t : Term)
  | ret (t : Option Term)
  | other

end

/-! ## Patterns -/

/-- A term that a value can be stored in: a name or a property, in any number of parentheses. -/
def Term.isPlace : Term → Bool
  | .ident .. => true
  | .member .. => true
  | .index .. => true
  | .privateMember .. => true
  | .paren t => t.isPlace
  | _ => false

/-- A term that a parameter can be: a name. -/
def Term.isName : Term → Bool
  | .ident .. => true
  | _ => false

mutual

/-- Whether a term can stand left of an assignment: a place or a pattern of places. The result
counts the initialized fields of the pattern. -/
def Term.target? (place : Term → Bool) : Term → Option Nat
  | .array _ elements trailing => elementTargets? place trailing elements
  | .object _ properties trailing => propertyTargets? place trailing properties
  | t => if place t then some 0 else none

/-- `target?` for a term that may have a default value. The fields of a pattern that has one were
accounted for with the assignment. -/
def Term.targetOrDefault? (place : Term → Bool) : Term → Option Nat
  | .assign _ plain target _ =>
    if plain && (target.target? place).isSome then some 0 else none
  | .array _ elements trailing => elementTargets? place trailing elements
  | .object _ properties trailing => propertyTargets? place trailing properties
  | t => if place t then some 0 else none

/-- `target?` for the items of a list. A spread item is the last one, without a comma after it. -/
def elementTargets? (place : Term → Bool) (trailing : Bool) : List Element → Option Nat
  | [] => some 0
  | .hole :: rest => elementTargets? place trailing rest
  | .item t :: rest => do
    let a ← t.targetOrDefault? place
    let b ← elementTargets? place trailing rest
    some (a + b)
  | .spread t :: rest => if rest.isEmpty && !trailing then t.target? place else none

/-- `target?` for the properties of an object. What collects its other properties is a place. -/
def propertyTargets? (place : Term → Bool) (trailing : Bool) : List Property → Option Nat
  | [] => some 0
  | .field _ _ method shorthand initialized value :: rest => do
    let a ←
      if method then none
      else if shorthand then some (if initialized then 1 else 0)
      else value.targetOrDefault? place
    let b ← propertyTargets? place trailing rest
    some (a + b)
  | .spread t :: rest => if rest.isEmpty && !trailing && place t then some 0 else none

end

/-! ## Items in parentheses -/

/-- The term of an item that is neither spread nor missing. -/
def Element.term? : Element → Option Term
  | .item t => some t
  | _ => none

/-- The expression that items in parentheses are. A comma stands between two items only. -/
def group? (items : List Element) (trailing : Bool) : Option Term := do
  match ← items.mapM Element.term? with
  | [] => none
  | [t] => if trailing then none else some (.paren t)
  | ts => if trailing then none else some (.paren (.sequence ts))

/-- The name of a parameter, unless it is a pattern. -/
def Term.parameterName? : Term → Option String
  | .ident name .. => some name
  | .assign _ _ (.ident name ..) _ => some name
  | _ => none

/-- The names of the parameters that items in parentheses are, but for what collects further
arguments. -/
def parameterNames : List Element → List (Option String)
  | [] => []
  | .item t :: rest => t.parameterName? :: parameterNames rest
  | _ :: rest => parameterNames rest

end UiTemplate.Script
