import UiTemplate.Template.LoopHead
import UiTemplate.Template.Node
import UiTemplate.Template.Piece
import UiTemplate.Template.Fault

/-!
# Start tags

What the attributes in a start tag mean: fixed attributes, directives that bind values, directives
that make the element part of a chain or of a loop, and directives that are not supported.
-/

namespace UiTemplate

/-- An attribute by its meaning. -/
inductive StartItem where
  | fixed (a : Attribute)
  | directive (d : Directive)

namespace StartItem

/-- A fixed attribute. -/
def attribute? : StartItem → Option Attribute
  | fixed a => some a
  | directive _ => none

/-- A directive. -/
def directive? : StartItem → Option Directive
  | fixed _ => none
  | directive d => some d

end StartItem

/-- The name without a mark at its front. -/
def dropMark (mark name : String) : Option String :=
  if mark.toList.isPrefixOf name.toList then some (String.ofList (name.toList.drop mark.length))
  else none

namespace RawAttribute

/-- The value of an attribute that needs one. -/
def requiredValue (a : RawAttribute) : Except Flaw String :=
  match a.value with
  | some v => if Text.allBlank v.toList then .error ⟨.missingExpression a.name, a.start⟩ else .ok v
  | none => .error ⟨.missingExpression a.name, a.start⟩

end RawAttribute

/-- The expression that a text which starts at byte `start` holds. -/
def expressionAt (text : String) (start : Nat) : Except Flaw Expression :=
  match Expression.parse text with
  | .ok e => .ok e
  | .error e =>
    let leading := Text.byteLength (text.toList.takeWhile Text.isBlank)
    .error ⟨.expression e, start + leading + e.offset⟩

namespace RawAttribute

/-- The expression of an attribute that needs one. -/
def expression (a : RawAttribute) : Except Flaw Expression := do
  let v ← a.requiredValue
  expressionAt v a.valueStart

/-- What an attribute binds: the part of its name after the mark of a bound attribute or of an
event. -/
def bound? (a : RawAttribute) : Option (BindingKind × String) :=
  match dropMark ":" a.name <|> dropMark "v-bind:" a.name with
  | some argument => some (.prop, argument)
  | none =>
    match dropMark "@" a.name <|> dropMark "v-on:" a.name with
    | some argument => some (.event, argument)
    | none => none

/-- Whether an attribute makes its element a part of a chain. -/
def isChain (a : RawAttribute) : Bool :=
  a.name == "v-if" || a.name == "v-else-if" || a.name == "v-else"

/-- Whether an attribute makes its element a loop. -/
def isLoop (a : RawAttribute) : Bool :=
  a.name == "v-for"

/-- The place of an element in its chain. -/
def chainRole (a : RawAttribute) : Except Flaw Structure := do
  if a.name == "v-if" then
    let e ← a.expression
    .ok (.onlyIf e)
  else if a.name == "v-else-if" then
    let e ← a.expression
    .ok (.elseIf e)
  else if (a.value.map fun v => Text.allBlank v.toList).getD true then .ok .otherwise
  else .error ⟨.elseWithValue, a.start⟩

/-- The loop that an element is repeated by. -/
def loopRole (a : RawAttribute) : Except Flaw Structure := do
  let v ← a.requiredValue
  match LoopHead.read? v a.valueStart with
  | none => .error ⟨.invalidLoop v, a.start⟩
  | some head =>
    let source ← expressionAt head.source head.sourceStart
    .ok (.forEach source head.item head.index)

/-- The meaning of an attribute that neither makes a chain nor a loop. A bound name must not be
empty and has no dots; all else with the mark of a directive is not supported. -/
def plainItem (locate : Nat → Location) (a : RawAttribute) : Except Flaw StartItem :=
  let location := locate a.start
  let unsupported := StartItem.directive (.unsupported a.name a.value location)
  if a.name == "v-html" then do
    let e ← a.expression
    .ok (.directive (.binding ⟨.html, "innerHTML", e, none, location⟩))
  else
    match a.bound? with
    | some (kind, argument) =>
      if argument = "" || argument.toList.contains '.' then .ok unsupported
      else do
        let e ← a.expression
        .ok (.directive (.binding ⟨kind, argument, e, none, location⟩))
    | none =>
      if (dropMark "v-" a.name).isSome || (dropMark "#" a.name).isSome then .ok unsupported
      else .ok (.fixed ⟨a.name, a.value, location⟩)

/-- The meaning of attributes, in their order. An element is a part of one chain and of one loop at
most: `inChain` and `inLoop` say whether it already is. -/
def items (locate : Nat → Location) (inChain inLoop : Bool) :
    List RawAttribute → Except Flaw (List StartItem)
  | [] => .ok []
  | a :: rest =>
    if a.isChain then
      if inChain then .error ⟨.duplicateStructure, a.start⟩
      else do
        let role ← a.chainRole
        let more ← items locate true inLoop rest
        .ok (.directive (.structural role (locate a.start)) :: more)
    else if a.isLoop then
      if inLoop then .error ⟨.duplicateStructure, a.start⟩
      else do
        let role ← a.loopRole
        let more ← items locate inChain true rest
        .ok (.directive (.structural role (locate a.start)) :: more)
    else do
      let item ← a.plainItem locate
      let more ← items locate inChain inLoop rest
      .ok (item :: more)

end RawAttribute

end UiTemplate
