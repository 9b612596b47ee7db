import UiTemplate.Json.Fields
import UiTemplate.Json.Printer
import UiTemplate.Json.Reader
import UiTemplate.Template.Node

/-!
# Stored trees

Trees as JSON: `Template.toJson` and `Template.ofJson?`. An expression is stored as its text and
read again, so a tree with a text that is no expression is rejected. Locations, keys, resolutions and
the two flags of an element may be missing.
-/

namespace UiTemplate

open Json

/-! ## Parts of nodes -/

/-- A word of 32 bits. -/
def word32? : Json → Option Nat :=
  natBelow? 0x100000000

/-- A word of 64 bits. -/
def word64? : Json → Option Nat :=
  natBelow? 0x10000000000000000

/-- A value that stands for no fields at all. -/
def isNothing : Json → Bool
  | .null => true
  | .obj [] => true
  | _ => false

/-- The variant without fields that a value names. -/
def stored? {α : Type} (all : List (String × α)) (v : Json) : Option α := do
  let name ← variant? isNothing v
  let entry ← all.find? fun e => e.1 == name
  some entry.2

/-- The name of a variant without fields. -/
def storedName {α : Type} [DecidableEq α] (all : List (String × α)) (a : α) : Json :=
  match all.find? fun e => e.2 = a with
  | some e => .str e.1
  | none => .null

namespace Location

/-- The stored form. -/
def toJson (l : Location) : Json :=
  ofFields [("line", .nat l.line), ("column", .nat l.column), ("offset", .nat l.offset)]

/-- The location that is stored. -/
def ofJson? (v : Json) : Option Location := do
  let f ← fields? ["line", "column", "offset"] v
  let line ← f.required "line" word32?
  let column ← f.required "column" word32?
  let offset ← f.required "offset" word32?
  some { line, column, offset }

end Location

namespace Expression

/-- The stored form: the text. -/
def toJson (e : Expression) : Json := .str e.source

/-- The expression of a stored text. -/
def ofJson? : Json → Option Expression
  | .str s => (parse s).toOption
  | _ => none

end Expression

/-- The names of the kinds of elements. -/
def ElementKind.names : List (String × ElementKind) :=
  [("native", .native), ("component", .component), ("fragment", .fragment)]

/-- The names of the kinds of bindings. -/
def BindingKind.names : List (String × BindingKind) :=
  [("attribute", .prop), ("event", .event), ("html", .html)]

/-- The names of the kinds of branches. -/
def BranchKind.names : List (String × BranchKind) :=
  [("if", .onlyIf), ("else-if", .elseIf), ("else", .otherwise)]

/-- The names of the policies for fallbacks. -/
def FallbackPolicy.names : List (String × FallbackPolicy) :=
  [("none", .none), ("dual-branch", .dualBranch), ("inline", .inline)]

namespace Attribute

/-- The stored form. -/
def toJson (a : Attribute) : Json :=
  ofFields
    [("name", .str a.name), ("value", ofOption .str a.value), ("location", a.location.toJson)]

/-- The attribute that is stored. -/
def ofJson? (v : Json) : Option Attribute := do
  let f ← fields? ["name", "value", "location"] v
  let name ← f.required "name" str?
  let value ← f.nullable "value" str?
  let location ← f.withDefault "location" Location.ofJson? {}
  some { name, value, location }

end Attribute

namespace Structure

/-- The stored form. -/
def toJson : Structure → Json
  | onlyIf condition => ofFields [("kind", .str "if"), ("condition", condition.toJson)]
  | elseIf condition => ofFields [("kind", .str "else-if"), ("condition", condition.toJson)]
  | otherwise => ofFields [("kind", .str "else")]
  | forEach source item index =>
    ofFields
      [("kind", .str "for"), ("source", source.toJson), ("item", .str item),
        ("index", ofOption .str index)]

/-- The structure that is stored. -/
def ofJson? (v : Json) : Option Structure := do
  let (kind, body) ← tagged? "kind" v
  if kind = "if" then
    let f ← fields? ["condition"] body
    let condition ← f.required "condition" Expression.ofJson?
    some (onlyIf condition)
  else if kind = "else-if" then
    let f ← fields? ["condition"] body
    let condition ← f.required "condition" Expression.ofJson?
    some (elseIf condition)
  else if kind = "else" then some otherwise
  else if kind = "for" then
    let f ← fields? ["source", "item", "index"] body
    let source ← f.required "source" Expression.ofJson?
    let item ← f.required "item" str?
    let index ← f.nullable "index" str?
    some (forEach source item index)
  else none

end Structure

namespace Directive

/-- The stored form. -/
def toJson : Directive → Json
  | structural kind location =>
    ofFields
      [("category", .str "structural"), ("kind", kind.toJson), ("location", location.toJson)]
  | binding b =>
    ofFields
      [("category", .str "binding"), ("kind", storedName BindingKind.names b.kind),
        ("name", .str b.name), ("expression", b.expression.toJson), ("key", ofOption .str b.key),
        ("location", b.location.toJson)]
  | unsupported name value location =>
    ofFields
      [("category", .str "unsupported"), ("name", .str name), ("value", ofOption .str value),
        ("location", location.toJson)]

/-- The directive that is stored. -/
def ofJson? (v : Json) : Option Directive := do
  let (category, body) ← tagged? "category" v
  if category = "structural" then
    let f ← fields? ["kind", "location"] body
    let kind ← f.required "kind" Structure.ofJson?
    let location ← f.withDefault "location" Location.ofJson? {}
    some (structural kind location)
  else if category = "binding" then
    let f ← fields? ["kind", "name", "expression", "key", "location"] body
    let kind ← f.required "kind" (stored? BindingKind.names)
    let name ← f.required "name" str?
    let expression ← f.required "expression" Expression.ofJson?
    let key ← f.withDefault "key" (Fields.orNull str?) none
    let location ← f.withDefault "location" Location.ofJson? {}
    some (binding { kind, name, expression, key, location })
  else if category = "unsupported" then
    let f ← fields? ["name", "value", "location"] body
    let name ← f.required "name" str?
    let value ← f.nullable "value" str?
    let location ← f.withDefault "location" Location.ofJson? {}
    some (unsupported name value location)
  else none

end Directive

namespace OutletBase

/-- The stored form: the kind beside the value. -/
def toJson : OutletBase → Json
  | fixed name => ofFields [("kind", .str "static"), ("value", .str name)]
  | computed name => ofFields [("kind", .str "dynamic"), ("value", name.toJson)]

/-- The name of an outlet that is stored. -/
def ofJson? (v : Json) : Option OutletBase := do
  let f ← fields? ["kind", "value"] v
  let kind ← f.required "kind" (variant? isNothing)
  if kind = "static" then
    let name ← f.required "value" str?
    some (fixed name)
  else if kind = "dynamic" then
    let name ← f.required "value" Expression.ofJson?
    some (computed name)
  else none

end OutletBase

namespace Resolution

/-- The stored form. -/
def toJson (r : Resolution) : Json :=
  ofFields
    [("base", r.base.toJson), ("loopPath", ofList .nat r.loopPath),
      ("enclosingConditionalIndex", ofOption .nat r.branch),
      ("fallback", storedName FallbackPolicy.names r.fallback)]

/-- The resolution that is stored. -/
def ofJson? (v : Json) : Option Resolution := do
  let f ← fields? ["base", "loopPath", "enclosingConditionalIndex", "fallback"] v
  let base ← f.required "base" OutletBase.ofJson?
  let loopPath ← f.required "loopPath" (list? word64?)
  let branch ← f.nullable "enclosingConditionalIndex" word64?
  let fallback ← f.required "fallback" (stored? FallbackPolicy.names)
  some { base, loopPath, branch, fallback }

end Resolution

namespace SlotKeys

/-- The stored form. -/
def toJson (k : SlotKeys) : Json :=
  ofFields [("name", ofOption .str k.name), ("outlet", ofOption .str k.outlet)]

/-- The keys that are stored. -/
def ofJson? (v : Json) : Option SlotKeys := do
  let f ← fields? ["name", "outlet"] v
  let name ← f.nullable "name" str?
  let outlet ← f.nullable "outlet" str?
  some { name, outlet }

end SlotKeys

/-! ## Nodes -/

mutual

/-- The stored form of a node. -/
def Node.toJson : Node → Json
  | .element info children =>
    ofFields
      [("type", .str "element"), ("tag", .str info.tag),
        ("kind", storedName ElementKind.names info.kind),
        ("attributes", ofList Attribute.toJson info.attributes),
        ("directives", ofList Directive.toJson info.directives),
        ("children", .arr (Node.toJsonAll children)), ("selfClosing", .bool info.selfClosing),
        ("isStatic", .bool info.isStatic), ("location", info.location.toJson)]
  | .text value location =>
    ofFields [("type", .str "text"), ("value", .str value), ("location", location.toJson)]
  | .interpolation expression key location =>
    ofFields
      [("type", .str "interpolation"), ("expression", expression.toJson),
        ("key", ofOption .str key), ("location", location.toJson)]
  | .slot info fallback =>
    ofFields
      [("type", .str "slot"), ("staticName", ofOption .str info.staticName),
        ("dynamicName", ofOption Expression.toJson info.dynamicName),
        ("attributes", ofList Attribute.toJson info.attributes),
        ("directives", ofList Directive.toJson info.directives),
        ("fallback", .arr (Node.toJsonAll fallback)), ("selfClosing", .bool info.selfClosing),
        ("resolution", ofOption Resolution.toJson info.resolution), ("keys", info.keys.toJson),
        ("location", info.location.toJson)]
  | .chain branches key location =>
    ofFields
      [("type", .str "conditional-group"), ("branches", .arr (Branch.toJsonAll branches)),
        ("key", ofOption .str key), ("location", location.toJson)]
  | .loop info children =>
    ofFields
      [("type", .str "for-block"), ("source", info.source.toJson), ("item", .str info.item),
        ("index", ofOption .str info.index), ("depth", .nat info.depth),
        ("children", .arr (Node.toJsonAll children)), ("key", ofOption .str info.key),
        ("location", info.location.toJson)]
  | .comment value location =>
    ofFields [("type", .str "comment"), ("value", .str value), ("location", location.toJson)]

/-- The stored forms of nodes. -/
def Node.toJsonAll : List Node → List Json
  | [] => []
  | n :: rest => n.toJson :: Node.toJsonAll rest

/-- The stored forms of branches. -/
def Branch.toJsonAll : List Branch → List Json
  | [] => []
  | .mk info children :: rest =>
    ofFields
      [("kind", storedName BranchKind.names info.kind),
        ("condition", ofOption Expression.toJson info.condition),
        ("children", .arr (Node.toJsonAll children)), ("key", ofOption .str info.key),
        ("location", info.location.toJson)] :: Branch.toJsonAll rest

end

/-- The branch that is stored, given how its nodes are read. -/
def Branch.ofJson? (node? : Json → Option Node) (v : Json) : Option Branch := do
  let f ← fields? ["kind", "condition", "children", "key", "location"] v
  let kind ← f.required "kind" (stored? BranchKind.names)
  let condition ← f.nullable "condition" Expression.ofJson?
  let children ← f.required "children" (list? node?)
  let key ← f.withDefault "key" (Fields.orNull str?) none
  let location ← f.withDefault "location" Location.ofJson? {}
  some ⟨{ kind, condition, key, location }, children⟩

/-- The node that is stored under a type, given how the nodes below it are read. -/
def Node.ofBody? (node? : Json → Option Node) (type : String) (body : Json) : Option Node := do
  if type = "element" then
    let f ← fields?
      ["tag", "kind", "attributes", "directives", "children", "selfClosing", "isStatic", "location"]
      body
    let tag ← f.required "tag" str?
    let kind ← f.required "kind" (stored? ElementKind.names)
    let attributes ← f.required "attributes" (list? Attribute.ofJson?)
    let directives ← f.required "directives" (list? Directive.ofJson?)
    let children ← f.required "children" (list? node?)
    let selfClosing ← f.withDefault "selfClosing" bool? false
    let isStatic ← f.withDefault "isStatic" bool? false
    let location ← f.withDefault "location" Location.ofJson? {}
    some (.element { tag, kind, attributes, directives, selfClosing, isStatic, location } children)
  else if type = "text" then
    let f ← fields? ["value", "location"] body
    let value ← f.required "value" str?
    let location ← f.withDefault "location" Location.ofJson? {}
    some (.text value location)
  else if type = "interpolation" then
    let f ← fields? ["expression", "key", "location"] body
    let expression ← f.required "expression" Expression.ofJson?
    let key ← f.withDefault "key" (Fields.orNull str?) none
    let location ← f.withDefault "location" Location.ofJson? {}
    some (.interpolation expression key location)
  else if type = "slot" then
    let f ← fields?
      ["staticName", "dynamicName", "attributes", "directives", "fallback", "selfClosing",
        "resolution", "keys", "location"] body
    let staticName ← f.nullable "staticName" str?
    let dynamicName ← f.nullable "dynamicName" Expression.ofJson?
    let attributes ← f.required "attributes" (list? Attribute.ofJson?)
    let directives ← f.required "directives" (list? Directive.ofJson?)
    let fallback ← f.required "fallback" (list? node?)
    let selfClosing ← f.withDefault "selfClosing" bool? false
    let resolution ← f.withDefault "resolution" (Fields.orNull Resolution.ofJson?) none
    let keys ← f.withDefault "keys" SlotKeys.ofJson? {}
    let location ← f.withDefault "location" Location.ofJson? {}
    some (.slot
      { staticName, dynamicName, attributes, directives, selfClosing, resolution, keys, location }
      fallback)
  else if type = "conditional-group" then
    let f ← fields? ["branches", "key", "location"] body
    let branches ← f.required "branches" (list? (Branch.ofJson? node?))
    let key ← f.withDefault "key" (Fields.orNull str?) none
    let location ← f.withDefault "location" Location.ofJson? {}
    some (.chain branches key location)
  else if type = "for-block" then
    let f ← fields? ["source", "item", "index", "depth", "children", "key", "location"] body
    let source ← f.required "source" Expression.ofJson?
    let item ← f.required "item" str?
    let index ← f.nullable "index" str?
    let depth ← f.required "depth" word64?
    let children ← f.required "children" (list? node?)
    let key ← f.withDefault "key" (Fields.orNull str?) none
    let location ← f.withDefault "location" Location.ofJson? {}
    some (.loop { source, item, index, depth, key, location } children)
  else if type = "comment" then
    let f ← fields? ["value", "location"] body
    let value ← f.required "value" str?
    let location ← f.withDefault "location" Location.ofJson? {}
    some (.comment value location)
  else none

/-- The node that is stored, if at most `depth` nodes lie inside each other. -/
def Node.ofJson? : Nat → Json → Option Node
  | 0, _ => none
  | depth + 1, v => do
    let (type, body) ← tagged? "type" v
    Node.ofBody? (Node.ofJson? depth) type body

namespace Template

/-- The stored form of a tree. -/
def toJson (nodes : List Node) : Json :=
  .arr (Node.toJsonAll nodes)

/-- The tree that is stored. No more nodes can lie inside each other than arrays and objects do. -/
def ofJson? (v : Json) : Option (List Node) :=
  list? (Node.ofJson? v.depth) v

/-- The stored text of a tree, with the entries of objects in the order of their keys. -/
def text (nodes : List Node) : String :=
  (toJson nodes).compact

/-- The tree of a stored text. -/
def ofText? (text : String) : Option (List Node) := do
  let v ← read? text
  if v.depth ≤ maxDepth then ofJson? v else none

end Template

end UiTemplate
