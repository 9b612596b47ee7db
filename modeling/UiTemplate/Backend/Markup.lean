import UiTemplate.Backend.Emit

/-!
# Nodes as markup

For the platforms that render markup, every dynamic part of a template becomes a placeholder for a
key of the mapping of bound values, and chains and loops become attributes of the nodes they govern.

References follow the mapping: inside a chain they go through the key of the chain, inside a loop
through the name of its item.
-/

namespace UiTemplate

/-- How a platform spells markup. -/
inductive Dialect where
  | weixin
  | alipay
  deriving DecidableEq, Repr, Inhabited

namespace Dialect

/-- The dialect of a platform; those without one take the first. -/
def ofPlatform : Platform → Dialect
  | .alipay => alipay
  | _ => weixin

/-- The attribute of a directive. -/
def directive (d : Dialect) (name : String) : String :=
  match d with
  | weixin => "wx:" ++ name
  | alipay => "a:" ++ name

/-- The attribute of an event. -/
def eventAttribute (d : Dialect) (event : String) : String :=
  match d with
  | weixin => "bind" ++ String.ofList (event.toList.filter (· ≠ '-'))
  | alipay => Code.handlerName event

end Dialect

/-- An attribute of markup, maybe without a value. -/
abbrev MarkupAttribute := String × Option String

namespace Markup

/-! ## Text -/

/-- A value between double quotes: quotes in it are written as references. -/
def quotedValue (value : String) : String :=
  "\"" ++ String.ofList (value.toList.flatMap fun c => if c = '"' then "&quot;".toList else [c]) ++
    "\""

/-- An attribute with the blank before it. -/
def attributeText : MarkupAttribute → String
  | (name, some value) => " " ++ name ++ "=" ++ quotedValue value
  | (name, none) => " " ++ name

/-- Attributes, each with the blank before it. -/
def attributesText (as : List MarkupAttribute) : String :=
  String.join (as.map attributeText)

/-- Markup inside a block that carries attributes, if there are any. -/
def wrap (as : List MarkupAttribute) (markup : String) : String :=
  if as.isEmpty then markup else "<block" ++ attributesText as ++ ">" ++ markup ++ "</block>"

/-- A placeholder for a value. -/
def placeholder (reference : String) : String :=
  "\x7b\x7b" ++ reference ++ "\x7d\x7d"

end Markup

/-- What does not change while a template is emitted. -/
structure MarkupSettings where
  dialect : Dialect
  defaultOutlet : String
  tolerant : Bool

/-- The way from the mapping to the record of the scope, the attributes that wait for the node they
govern, whether that node is repeated by a loop, and the errors so far. -/
structure MarkupState where
  scope : List String := []
  pending : List MarkupAttribute := []
  loopOwner : Bool := false
  errors : List Diagnostic := []

/-- A step that emits markup. -/
abbrev EmitMarkup := Emit MarkupState

namespace Markup

/-! ## State -/

/-- The attributes that wait for a node, which no longer wait. -/
def takePending : EmitMarkup (List MarkupAttribute) := do
  let s ← get
  set { s with pending := [] }
  return s.pending

/-- Whether the node is repeated by a loop, which no later node is. -/
def takeLoopOwner : EmitMarkup Bool := do
  let s ← get
  set { s with loopOwner := false }
  return s.loopOwner

/-- Notes an error. Nothing waits for a later node then. -/
def note (d : Diagnostic) : EmitMarkup Unit :=
  modify fun s => { s with pending := [], loopOwner := false, errors := s.errors ++ [d] }

/-- A step in another scope. -/
def inScope {α : Type} (change : List String → List String) : EmitMarkup α → EmitMarkup α :=
  Emit.within (fun s => { s with scope := change s.scope })
    fun before after => { after with scope := before.scope }

/-- The way to a value of the scope. -/
def reference (scope : List String) (key : Option Key) : String :=
  ".".intercalate (scope ++ key.toList)

/-! ## Parts of nodes -/

/-- The attribute of a bound value; none for the key of a node that a loop repeats, which the loop
carries. A handler must be the name of a method. -/
def boundAttribute (settings : MarkupSettings) (scope : List String) (path : Path)
    (loopOwner : Bool) (b : Binding) : Except Diagnostic (Option MarkupAttribute) :=
  match b.kind with
  | .prop =>
    if loopOwner && b.name == "key" then .ok none
    else .ok (some (b.name, some (placeholder (reference scope b.key))))
  | .event =>
    match b.expression.tree with
    | .ident handler => .ok (some (settings.dialect.eventAttribute b.name, some handler))
    | _ => .error ⟨.handlerNotNamed b.name, path, b.location⟩
  | .html => .error ⟨.htmlInMarkup, path, b.location⟩

/-- The attributes of bound values with the bytes they are written at. -/
def boundAttributes (settings : MarkupSettings) (scope : List String) (path : Path)
    (loopOwner : Bool) : List Binding → Except Diagnostic (List (Nat × MarkupAttribute))
  | [] => .ok []
  | b :: rest => do
    let a ← boundAttribute settings scope path loopOwner b
    let more ← boundAttributes settings scope path loopOwner rest
    .ok ((a.toList.map fun a => (b.location.offset, a)) ++ more)

/-- The attributes of an element in the order in which they are written. -/
def elementAttributes (settings : MarkupSettings) (scope : List String) (path : Path)
    (loopOwner : Bool) (info : ElementInfo) : Except Diagnostic (List MarkupAttribute) := do
  let bound ← boundAttributes settings scope path loopOwner (bindings info.directives)
  .ok (inTextOrder ((info.attributes.map fun a => (a.location.offset, a.name, a.value)) ++ bound))

/-- The attribute that tells a component for which outlets it is given content. -/
def contentAttribute (settings : MarkupSettings) (info : ElementInfo) (children : List Node) :
    List MarkupAttribute :=
  if info.kind == .component && !children.isEmpty then
    [("u-s", some (placeholder ("['" ++ settings.defaultOutlet ++ "']")))]
  else []

/-- The markup of an element, given how its children are emitted. -/
def elementMarkup (settings : MarkupSettings) (path : Path) (info : ElementInfo)
    (children : List Node) (emitChildren : EmitMarkup (List String)) : EmitMarkup String := do
  Emit.checkDirectives info.directives path
  let loopOwner ← takeLoopOwner
  let pending ← takePending
  let s ← get
  let own ← ExceptT.mk (pure (elementAttributes settings s.scope path loopOwner info))
  let all := pending ++ own ++ contentAttribute settings info children
  let tag := if info.kind == .fragment then "block" else info.tag
  let start := "<" ++ tag ++ attributesText all
  if children.isEmpty && info.selfClosing then return start ++ "/>"
  else
    let content ← emitChildren
    return start ++ ">" ++ String.join content ++ "</" ++ tag ++ ">"

/-- The test whether a slot's outlet has content. -/
def presence (scope : List String) (info : SlotInfo) (base : OutletBase) : String :=
  match info.keys.outlet with
  | some outlet => reference scope (some outlet)
  | none =>
    match info.keys.name, base with
    | some name, _ => "$slots[" ++ reference scope (some name) ++ "]"
    | none, .fixed name =>
      if Code.fieldKey name = name then "$slots." ++ name else "$slots['" ++ name ++ "']"
    | none, .computed e => "$slots[" ++ e.source ++ "]"

/-- The attributes of a slot: its name unless it is the default one, and what is passed to it. -/
def slotAttributes (settings : MarkupSettings) (scope : List String) (info : SlotInfo)
    (base : OutletBase) : List MarkupAttribute :=
  let name := match info.keys.name, base with
    | some key, _ => [("name", some (placeholder (reference scope (some key))))]
    | none, .fixed name =>
      if name = settings.defaultOutlet then [] else [("name", some name)]
    | none, .computed _ => []
  let props := match info.keys.outlet with
    | some outlet =>
      if info.hasProps then
        [("props", some (placeholder (reference scope (some outlet) ++ ".props")))]
      else []
    | none => []
  name ++ props

/-- The markup of a slot, given how its fallback is emitted. -/
def slotMarkup (settings : MarkupSettings) (path : Path) (info : SlotInfo)
    (emitFallback : EmitMarkup (List String)) : EmitMarkup String := do
  Emit.checkDirectives info.directives path
  match info.resolution with
  | none => throw ⟨.unresolvedSlot, path, info.location⟩
  | some r =>
    let pending ← takePending
    let s ← get
    let own := slotAttributes settings s.scope info r.base
    if r.fallback ≠ .dualBranch then return "<slot" ++ attributesText (pending ++ own) ++ "/>"
    else
      let test := placeholder (presence s.scope info r.base)
      let fallback ← emitFallback
      return wrap pending
        ("<block" ++ attributeText (settings.dialect.directive "if", some test) ++ "><slot" ++
          attributesText own ++ "/></block><block" ++
          attributeText (settings.dialect.directive "else", none) ++ ">" ++ String.join fallback ++
          "</block>")

/-- The attribute that makes a node a branch. -/
def branchAttribute (settings : MarkupSettings) (scope : List String) (info : BranchInfo) :
    MarkupAttribute :=
  let condition := placeholder (reference scope info.key)
  match info.kind with
  | .onlyIf => (settings.dialect.directive "if", some condition)
  | .elseIf => (settings.dialect.directive "elif", some condition)
  | .otherwise => (settings.dialect.directive "else", none)

/-- The markup of a branch, given how its node is emitted. -/
def branchMarkup (settings : MarkupSettings) (chainKey : Option Key) (info : BranchInfo)
    (emitNode : EmitMarkup String) : EmitMarkup String :=
  inScope (· ++ [chainKey.getD ""]) do
    modify fun s => { s with pending := [branchAttribute settings s.scope info] }
    emitNode

/-- The attributes of a loop. The key of the node that it repeats goes with them. -/
def loopAttributes (settings : MarkupSettings) (scope : List String) (info : LoopInfo)
    (children : List Node) : List MarkupAttribute :=
  let key := match children with
    | .element owner _ :: _ => (attributeBinding? owner.directives "key").bind Binding.key
    | _ => none
  [(settings.dialect.directive "for", some (placeholder (reference scope info.key))),
    (settings.dialect.directive "for-item", some info.item)] ++
    key.toList.map fun k => (settings.dialect.directive "key", some k)

/-- Whether an element comes first. -/
def startsWithElement : List Node → Bool
  | .element .. :: _ => true
  | _ => false

/-- The markup of a loop, given how its node is emitted. A node that takes no attributes is put
inside a block. -/
def loopMarkup (settings : MarkupSettings) (info : LoopInfo) (children : List Node)
    (emitNode : EmitMarkup String) : EmitMarkup String := do
  let outer ← takePending
  let s ← get
  let (child, leftover) ← Emit.within
    (fun s =>
      { s with
        scope := [info.item]
        pending := loopAttributes settings s.scope info children
        loopOwner := startsWithElement children })
    (fun _ after => { after with scope := s.scope, pending := [], loopOwner := false })
    (do
      let child ← emitNode
      let leftover ← takePending
      return (child, leftover))
  return wrap outer (wrap leftover child)

/-! ## Nodes -/

mutual

/-- The markup of a node. -/
def emit (settings : MarkupSettings) (path : Path) : Node → EmitMarkup String
  | .element info children =>
    elementMarkup settings path info children (emitAll settings path 0 children)
  | .text value _ => do
    let pending ← takePending
    return wrap pending value
  | .interpolation _ key _ => do
    let pending ← takePending
    let s ← get
    return wrap pending (placeholder (reference s.scope key))
  | .slot info fallback => slotMarkup settings path info (emitAll settings path 0 fallback)
  | .chain branches key _ => do
    let pending ← takePending
    let markup ← emitBranches settings path 0 key branches
    return wrap pending markup
  | .loop info children => loopMarkup settings info children (emitFirst settings path children)
  | .comment value _ => return "<!--" ++ value ++ "-->"

/-- The markup of the first of the children, if there is one. -/
def emitFirst (settings : MarkupSettings) (path : Path) : List Node → EmitMarkup String
  | [] => return ""
  | node :: _ => emit settings (path.child 0) node

/-- The markup of the children from an index on. A child that fails is left out if faults are
tolerated. -/
def emitAll (settings : MarkupSettings) (parent : Path) (index : Nat) :
    List Node → EmitMarkup (List String)
  | [] => return []
  | node :: rest => do
    match ← Emit.attempt (emit settings (parent.child index) node) with
    | .ok markup =>
      let more ← emitAll settings parent (index + 1) rest
      return markup :: more
    | .error d =>
      if settings.tolerant then
        note d
        emitAll settings parent (index + 1) rest
      else throw d

/-- The markup of the branches from an index on. A branch without a node is left out. -/
def emitBranches (settings : MarkupSettings) (parent : Path) (index : Nat) (key : Option Key) :
    List Branch → EmitMarkup String
  | [] => return ""
  | .mk _ [] :: rest => emitBranches settings parent (index + 1) key rest
  | .mk info (node :: _) :: rest => do
    let markup ← branchMarkup settings key info
      (emit settings ((parent.child index).child 0) node)
    let more ← emitBranches settings parent (index + 1) key rest
    return markup ++ more

end

/-- The markup of a template, and the faults that were tolerated. -/
def generate (settings : MarkupSettings) (nodes : List Node) :
    Except Diagnostic (String × List Diagnostic) :=
  match (emitAll settings [] 0 nodes).run {} with
  | (.ok markup, s) => .ok (String.join markup, s.errors)
  | (.error d, _) => .error d

end Markup

end UiTemplate
