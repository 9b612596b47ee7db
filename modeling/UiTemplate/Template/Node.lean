import UiTemplate.Expression.Basic
import UiTemplate.Code.Name
import UiTemplate.Template.Location

/-!
# Templates as trees

The nodes of a template. A slot carries how its outlet was resolved, and every dynamic part carries
the key it is bound under; both are absent in a tree that was just read.
-/

namespace UiTemplate

/-- The name of a value in the mapping that emitted markup refers to. -/
abbrev Key := String

/-- What an element stands for: something of the host, a component, or its children alone. -/
inductive ElementKind where
  | native
  | component
  | fragment
  deriving DecidableEq, Repr, Inhabited

/-- An attribute with a fixed value, or without one. -/
structure Attribute where
  name : String
  value : Option String
  location : Location
  deriving DecidableEq, Repr, Inhabited

/-- What a structural directive asks for. -/
inductive Structure where
  | onlyIf (condition : Expression)
  | elseIf (condition : Expression)
  | otherwise
  | forEach (source : Expression) (item : String) (index : Option String)

/-- What a bound value is used for. -/
inductive BindingKind where
  | prop
  | event
  | html
  deriving DecidableEq, Repr, Inhabited

/-- A value bound to an attribute, an event or the content of an element. -/
structure Binding where
  kind : BindingKind
  name : String
  expression : Expression
  key : Option Key := none
  location : Location

/-- A directive of an element. -/
inductive Directive where
  | structural (kind : Structure) (location : Location)
  | binding (binding : Binding)
  | unsupported (name : String) (value : Option String) (location : Location)

/-- The name of an outlet: fixed, or computed while rendering. -/
inductive OutletBase where
  | fixed (name : String)
  | computed (name : Expression)

/-- What becomes of a slot's fallback. -/
inductive FallbackPolicy where
  | none
  | dualBranch
  | inline
  deriving DecidableEq, Repr, Inhabited

/-- How a slot was resolved: the name of its outlet, the depths of the loops around it, outermost
first, and the index of the innermost branch around it. -/
structure Resolution where
  base : OutletBase
  loopPath : List Nat
  branch : Option Nat
  fallback : FallbackPolicy

/-- The keys of a slot: of its outlet's identity and of the outlet itself. -/
structure SlotKeys where
  name : Option Key := none
  outlet : Option Key := none
  deriving DecidableEq, Repr, Inhabited

/-- The place of a branch in its chain. -/
inductive BranchKind where
  | onlyIf
  | elseIf
  | otherwise
  deriving DecidableEq, Repr, Inhabited

/-- An element without its children. -/
structure ElementInfo where
  tag : String
  kind : ElementKind
  attributes : List Attribute
  directives : List Directive
  selfClosing : Bool := false
  isStatic : Bool := false
  location : Location := {}

/-- A slot without its fallback. -/
structure SlotInfo where
  staticName : Option String
  dynamicName : Option Expression
  attributes : List Attribute
  directives : List Directive
  selfClosing : Bool := false
  resolution : Option Resolution := none
  keys : SlotKeys := {}
  location : Location := {}

/-- A branch of a chain without its nodes. -/
structure BranchInfo where
  kind : BranchKind
  condition : Option Expression
  key : Option Key := none
  location : Location := {}

/-- A loop without its nodes; `depth` is the number of loops around it. -/
structure LoopInfo where
  source : Expression
  item : String
  index : Option String
  depth : Nat
  key : Option Key := none
  location : Location := {}

mutual

/-- A node of a template. -/
inductive Node where
  | element (info : ElementInfo) (children : List Node)
  | text (value : String) (location : Location)
  | interpolation (expression : Expression) (key : Option Key) (location : Location)
  | slot (info : SlotInfo) (fallback : List Node)
  | chain (branches : List Branch) (key : Option Key) (location : Location)
  | loop (info : LoopInfo) (children : List Node)
  | comment (value : String) (location : Location)

/-- A branch of a chain. -/
inductive Branch where
  | mk (info : BranchInfo) (children : List Node)

end

namespace Directive

/-- The bound value of a binding directive. -/
def binding? : Directive → Option Binding
  | binding b => some b
  | _ => none

/-- What a structural directive asks for. -/
def structure? : Directive → Option Structure
  | structural s _ => some s
  | _ => none

/-- Where the directive stands. -/
def location : Directive → Location
  | structural _ l => l
  | binding b => b.location
  | unsupported _ _ l => l

end Directive

/-- The bound values among directives. -/
def bindings (directives : List Directive) : List Binding :=
  directives.filterMap Directive.binding?

/-- The value bound to an attribute. -/
def attributeBinding? (directives : List Directive) (name : String) : Option Binding :=
  (bindings directives).find? fun b => b.kind == .prop && b.name == name

/-- Whether a slot passes anything to its outlet. -/
def SlotInfo.hasProps (slot : SlotInfo) : Bool :=
  !slot.attributes.isEmpty || !(bindings slot.directives).isEmpty

namespace LoopInfo

/-- The variable that holds the position in the loop. -/
def pathVariable (loop : LoopInfo) : String :=
  Code.pathVariable loop.depth

/-- The names that the loop binds. -/
def locals (loop : LoopInfo) : List String :=
  loop.item :: loop.index.toList ++ [loop.pathVariable]

/-- The parameters of the loop's producer; an index that is not named has a placeholder. -/
def params (loop : LoopInfo) : List String :=
  [loop.item, loop.index.getD "_", loop.pathVariable]

end LoopInfo

namespace Branch

/-- The branch without its nodes. -/
def info : Branch → BranchInfo
  | mk info _ => info

/-- The nodes of a branch. -/
def children : Branch → List Node
  | mk _ children => children

end Branch

namespace Node

/-- Whether the node and all below it render without a dynamic value. -/
def isStatic : Node → Bool
  | element info _ => info.isStatic
  | text .. => true
  | comment .. => true
  | _ => false

/-- Whether the node renders as characters. -/
def isTextLike : Node → Bool
  | text .. => true
  | interpolation .. => true
  | _ => false

end Node

end UiTemplate
