import UiTemplate.Backend.Emit
import UiTemplate.Backend.PatchFlag
import UiTemplate.Backend.RenderUnit
import UiTemplate.Binding.Render

/-!
# Nodes as calls

For the platforms whose runtime takes nodes, every node of the template becomes a call that
constructs it. Static elements below the root can be hoisted, so that they are constructed once.
-/

namespace UiTemplate

/-- What does not change while a template is emitted. -/
structure CallSettings where
  platform : Platform
  context : BindingContext
  resolver : Resolver
  hoistStatic : Bool
  tolerant : Bool

/-- The names that are local, the indentation of the line, whether a node is being hoisted, and what
was emitted so far. -/
structure CallState where
  locals : List String := []
  level : Nat := 1
  hoisting : Bool := false
  unit : RenderUnit := {}
  errors : List Diagnostic := []

/-- A step that emits calls. -/
abbrev EmitCall := Emit CallState

/-- The properties of an element: the code of all of them, what of them changes, and the names of
those that change one by one. -/
structure ElementProps where
  literal : Option String
  flag : PatchFlag
  dynamic : List String

namespace Calls

/-! ## State -/

/-- Notes that a name is imported. -/
def imports (name : String) : EmitCall Unit :=
  modify fun s => { s with unit := { s.unit with imports := insertName name s.unit.imports } }

/-- Notes that a helper is needed. -/
def uses (h : Helper) : EmitCall Unit :=
  modify fun s => { s with unit := { s.unit with helpers := s.unit.helpers.insert h } }

/-- Notes an error. -/
def note (d : Diagnostic) : EmitCall Unit :=
  modify fun s => { s with errors := s.errors ++ [d] }

/-- A step with further local names. -/
def withLocals {α : Type} (names : List String) : EmitCall α → EmitCall α :=
  Emit.within (fun s => { s with locals := s.locals ++ names })
    fun before after => { after with locals := before.locals }

/-- A step one level further in. -/
def deeper {α : Type} : EmitCall α → EmitCall α :=
  Emit.within (fun s => { s with level := s.level + 1 })
    fun before after => { after with level := before.level }

/-- A step that emits a node to be hoisted. -/
def aside {α : Type} : EmitCall α → EmitCall α :=
  Emit.within (fun s => { s with level := 0, hoisting := true })
    fun before after => { after with level := before.level, hoisting := before.hoisting }

/-! ## Calls -/

/-- Arguments without the missing ones at the end; a missing one before them is `null`. -/
def arguments (args : List (Option String)) : List String :=
  ((args.reverse.dropWhile Option.isNone).reverse).map fun a => a.getD "null"

/-- The call of a constructor, which is imported. -/
def call (callee : String) (args : List (Option String)) : EmitCall String := do
  imports callee
  return callee ++ "(" ++ ", ".intercalate (arguments args) ++ ")"

/-- The constructor of nodes without a node of their own, which is imported. -/
def fragment : EmitCall String := do
  imports "Fragment"
  return "Fragment"

/-- A fragment with the given children. -/
def fragmentCall (children : String) (flag : PatchFlag) : EmitCall String := do
  let tag ← fragment
  call "createElementVNode" [some tag, none, some children, some flag.render]

/-- An array literal with one line an item, at a level of indentation. -/
def arrayLiteral (level : Nat) (items : List String) : String :=
  if items.isEmpty then "[]"
  else
    "[\n" ++ ",\n".intercalate (items.map fun i => Code.indent (level + 1) ++ i) ++ "\n" ++
      Code.indent level ++ "]"

/-! ## Parts of nodes -/

/-- The code of an interpolation. -/
def display (settings : CallSettings) (expression : Expression) (key : Option Key) :
    EmitCall String := do
  uses .display
  let s ← get
  match key.bind settings.context.thunk? with
  | some t => return t.render s.locals s.level
  | none => return Helper.display.call [expression.render s.locals]

/-- The constant of a component. It is looked up and declared once a tag. -/
def component (settings : CallSettings) (tag : String) : EmitCall String := do
  let s ← get
  match s.unit.components.find? fun c => c.tag == tag with
  | some c => return c.variableName
  | none =>
    let c : ComponentRef := ⟨tag, settings.resolver tag⟩
    match c.source with
    | .runtime => imports "resolveComponent"
    | .file _ => imports "resolveEasyComponent"
    | .resolved _ => pure ()
    modify fun s => { s with unit := { s.unit with components := s.unit.components ++ [c] } }
    return c.variableName

/-- The handler of an event. All but a handler itself runs inside a function of the event. -/
def handler (locals : List String) (e : Expression) : String :=
  if e.isHandler then e.render locals
  else "$event => (" ++ e.render (locals ++ ["$event"]) ++ ")"

/-- The name and the code of a bound property. -/
def boundProp (locals : List String) (b : Binding) : String × String :=
  match b.kind with
  | .prop => (b.name, b.expression.render locals)
  | .event => (Code.handlerName b.name, handler locals b.expression)
  | .html => (b.name, b.expression.render locals)

/-- What changes with a bound property. -/
def changes (b : Binding) : PatchFlag :=
  match b.kind with
  | .event => 0
  | .html => PatchFlag.props
  | .prop =>
    if b.name = "class" then PatchFlag.classes
    else if b.name = "style" then PatchFlag.style
    else if b.name = "key" then 0
    else PatchFlag.props

/-- The properties of an element, in the order in which they are written. -/
def elementProps (platform : Platform) (locals : List String) (info : ElementInfo) :
    ElementProps :=
  let bound := bindings info.directives
  let entries := inTextOrder
    ((info.attributes.map fun a =>
        (a.location.offset, a.name, (a.value.map Code.literal).getD "true")) ++
      bound.map fun b => (b.location.offset, boundProp locals b))
  let literal :=
    if entries.isEmpty then none
    else if platform.isTyped then
      let pairs := entries.map fun (name, value) => "[" ++ Code.literal name ++ ", " ++ value ++ "]"
      some ("new Map<string, any | null>([" ++ ", ".intercalate pairs ++ "])")
    else
      let fields := entries.map fun (name, value) => Code.fieldKey name ++ ": " ++ value
      some (Code.inlineObject fields)
  { literal
    flag := bound.foldl (fun flag b => flag ||| changes b) 0
    dynamic := bound.filterMap fun b => if changes b == PatchFlag.props then some b.name else none }

/-- The code of text and interpolations as one text, and whether it changes. Other nodes have
none. -/
def textParts (settings : CallSettings) : List Node → EmitCall (List String × Bool)
  | [] => return ([], false)
  | .interpolation expression key _ :: rest => do
    let code ← display settings expression key
    let (more, _) ← textParts settings rest
    return (code :: more, true)
  | .text value _ :: rest => do
    let (more, dynamic) ← textParts settings rest
    return (Code.literal value :: more, dynamic)
  | _ :: rest => textParts settings rest

/-- Whether children are characters only, so that they collapse into one text. -/
def isText (children : List Node) : Bool :=
  !children.isEmpty && children.all Node.isTextLike

/-- Whether an element's content is bound. -/
def hasHtml (info : ElementInfo) : Bool :=
  (bindings info.directives).any fun b => b.kind == .html

/-- The call that constructs an element, given the code of its children. -/
def constructElement (settings : CallSettings) (info : ElementInfo) (props : ElementProps)
    (children : Option String) (flag : PatchFlag) (hoisted : Bool) : EmitCall String := do
  let (callee, tag) ← match info.kind with
    | .native => pure ("createElementVNode", Code.literal info.tag)
    | .component => do
      let variableName ← component settings info.tag
      pure ("createVNode", variableName)
    | .fragment => do
      let tag ← fragment
      pure ("createElementVNode", tag)
  let flagArgument :=
    if hoisted then some PatchFlag.hoisted.render
    else if flag != 0 then some flag.render
    else none
  let dynamicArgument :=
    if !hoisted && !props.dynamic.isEmpty then
      some ("[" ++ ", ".intercalate (props.dynamic.map Code.literal) ++ "]")
    else none
  call callee [some tag, props.literal, children, flagArgument, dynamicArgument]

/-- Declares a hoisted node and gives its name. -/
def declare (code : String) : EmitCall String := do
  let s ← get
  let name := "_hoisted_" ++ Decimal.natText (s.unit.hoisted.length + 1)
  let line := "const " ++ name ++ " = " ++ code
  modify fun s => { s with unit := { s.unit with hoisted := s.unit.hoisted ++ [line] } }
  return name

/-- The outlet that a slot's key stands for. -/
def outletOf (settings : CallSettings) (slot : SlotInfo) (path : Path) : EmitCall OutletCall :=
  match slot.keys.outlet.bind settings.context.thunk? with
  | some (.outlet outlet) => pure outlet
  | _ => throw ⟨.unresolvedSlot, path, slot.location⟩

/-- Whether the node a loop repeats has a key. -/
def isKeyed : List Node → Bool
  | .element info _ :: _ => (attributeBinding? info.directives "key").isSome
  | _ => false

/-- The call that constructs what a loop repeats. -/
def constructLoop (source : String) (info : LoopInfo) (child : String) (keyed : Bool) :
    EmitCall String := do
  uses .forEach
  let items := Helper.forEach.call
    [source, "(" ++ ", ".intercalate info.params ++ ") => " ++ child]
  fragmentCall items (if keyed then PatchFlag.keyedFragment else PatchFlag.unkeyedFragment)

/-- A chain of conditionals from the code of its branches. Without a branch that has no condition a
comment is constructed in the end. -/
def conditional (branches : List (Option String × String)) : EmitCall String := do
  let tests := branches.filterMap fun (condition, node) =>
    condition.map fun c => c ++ " ? " ++ node ++ " : "
  let alternate ← match (branches.filter fun b => b.1.isNone).getLast? with
    | some (_, node) => pure node
    | none => call "createCommentVNode" [some "\"v-if\"", some "true"]
  return String.join tests ++ alternate

/-- The code of an element whose directives are all supported. `emitChildren` emits its children one
by one, where they do not collapse into one text. -/
def elementCode (settings : CallSettings) (path : Path) (info : ElementInfo)
    (children : List Node) (emitChildren : EmitCall (List String)) (hoisted : Bool) :
    EmitCall String := do
  if hasHtml info && !children.isEmpty then
    throw ⟨.htmlAndChildren info.tag, path, info.location⟩
  let s ← get
  let props := elementProps settings.platform s.locals info
  let construct := constructElement settings info props
  match info.kind with
  | .native =>
    if isText children then
      let (parts, dynamic) ← textParts settings children
      let flag := if dynamic then props.flag ||| PatchFlag.text else props.flag
      construct (some (" + ".intercalate parts)) flag hoisted
    else if children.isEmpty then construct none props.flag hoisted
    else
      let items ← deeper emitChildren
      construct (some (arrayLiteral s.level items)) props.flag hoisted
  | .component =>
    if children.isEmpty then construct none props.flag hoisted
    else
      let items ← deeper emitChildren
      let code := "\x7b default: () => " ++ arrayLiteral s.level items ++ " \x7d"
      construct (some code) props.flag hoisted
  | .fragment =>
    let items ← deeper emitChildren
    construct (some (arrayLiteral s.level items)) (props.flag ||| PatchFlag.stableFragment) hoisted

/-- The code of an element, which is hoisted if it is static and below the root. -/
def elementOrHoisted (settings : CallSettings) (path : Path) (info : ElementInfo)
    (children : List Node) (emitChildren : EmitCall (List String)) : EmitCall String := do
  Emit.checkDirectives info.directives path
  let s ← get
  if settings.hoistStatic && !s.hoisting && info.isStatic && 1 < path.length then
    let code ← aside (elementCode settings path info children emitChildren true)
    declare code
  else elementCode settings path info children emitChildren false

/-- The code of a slot: its outlet, and its fallback behind it. One node of fallback is emitted by
`emitFirst`, several by `emitChildren`. -/
def slotCode (settings : CallSettings) (path : Path) (info : SlotInfo) (count : Nat)
    (emitFirst : EmitCall String) (emitChildren : EmitCall (List String)) : EmitCall String := do
  Emit.checkDirectives info.directives path
  let outlet ← outletOf settings info path
  uses .resolveOutlet
  let s ← get
  let code := outlet.render s.locals
  if count = 0 then return code
  else if count = 1 then
    let fallback ← emitFirst
    return code ++ " ?? " ++ fallback
  else
    let items ← deeper emitChildren
    let fallback ← fragmentCall (arrayLiteral s.level items) PatchFlag.stableFragment
    return code ++ " ?? " ++ fallback

/-! ## Nodes -/

mutual

/-- The code of a node. -/
def emit (settings : CallSettings) (path : Path) : Node → EmitCall String
  | .element info children =>
    elementOrHoisted settings path info children (emitAll settings path 0 children)
  | .text value _ => call "createTextVNode" [some (Code.literal value)]
  | .interpolation expression key _ => do
    let code ← display settings expression key
    call "createTextVNode" [some code, some PatchFlag.text.render]
  | .slot info fallback =>
    slotCode settings path info fallback.length (emitFirst settings path fallback)
      (emitAll settings path 0 fallback)
  | .chain branches _ _ => do
    let codes ← emitBranches settings path 0 branches
    conditional codes
  | .loop info children => do
    let s ← get
    let source := info.source.render s.locals
    let child ← withLocals info.locals (emitFirst settings path children)
    constructLoop source info child (isKeyed children)
  | .comment value _ => call "createCommentVNode" [some (Code.literal value)]

/-- The code of the first of the children, `null` if there is none. -/
def emitFirst (settings : CallSettings) (path : Path) : List Node → EmitCall String
  | [] => return "null"
  | node :: _ => emit settings (path.child 0) node

/-- The code of the children from an index on. A child that fails is left out if faults are
tolerated. -/
def emitAll (settings : CallSettings) (parent : Path) (index : Nat) :
    List Node → EmitCall (List String)
  | [] => return []
  | node :: rest => do
    match ← Emit.attempt (emit settings (parent.child index) node) with
    | .ok code =>
      let more ← emitAll settings parent (index + 1) rest
      return code :: more
    | .error d =>
      if settings.tolerant then
        note d
        emitAll settings parent (index + 1) rest
      else throw d

/-- The conditions and the code of the branches from an index on. A branch without a node is left
out. -/
def emitBranches (settings : CallSettings) (parent : Path) (index : Nat) :
    List Branch → EmitCall (List (Option String × String))
  | [] => return []
  | .mk _ [] :: rest => emitBranches settings parent (index + 1) rest
  | .mk info (node :: _) :: rest => do
    let code ← emit settings ((parent.child index).child 0) node
    let s ← get
    let condition := info.condition.map fun e => e.renderOperand s.locals
    let more ← emitBranches settings parent (index + 1) rest
    return (condition, code) :: more

end

/-- The code of the roots of a template: several become a fragment, and none is `null`. -/
def emitRoots (settings : CallSettings) (nodes : List Node) : EmitCall String := do
  if 1 < nodes.length then
    let s ← get
    let items ← deeper (emitAll settings [] 0 nodes)
    fragmentCall (arrayLiteral s.level items) PatchFlag.stableFragment
  else
    let codes ← emitAll settings [] 0 nodes
    return codes.getLast?.getD "null"

/-- The unit of a template, and the faults that were tolerated. -/
def generate (settings : CallSettings) (nodes : List Node) :
    Except Diagnostic (RenderUnit × List Diagnostic) :=
  match (emitRoots settings nodes).run {} with
  | (.ok root, s) => .ok ({ s.unit with root }, s.errors)
  | (.error d, _) => .error d

end Calls

end UiTemplate
