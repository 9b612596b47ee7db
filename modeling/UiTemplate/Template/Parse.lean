import UiTemplate.Template.Chain
import UiTemplate.Template.Raw
import UiTemplate.Template.Start
import UiTemplate.Template.Tag

/-!
# Reading templates

The tree of a template from its text. Of several things that are wrong the first one in the text is
reported, but a text that is no run of well-formed tags is rejected before attributes are read.
-/

namespace UiTemplate

/-- What becomes of blanks that only lay a template out. -/
inductive Whitespace where
  | condense
  | preserve
  deriving DecidableEq, Repr, Inhabited

/-- How templates are read. -/
structure ParseOptions where
  platform : Platform := .web
  whitespace : Whitespace := .condense
  deriving DecidableEq, Repr, Inhabited

/-- The slot that a start tag describes. Of several names of one kind the last one counts. -/
def SlotInfo.ofStart (attributes : List Attribute) (directives : List Directive)
    (selfClosing : Bool) (location : Location) : SlotInfo where
  staticName := ((attributes.filter (·.name == "name")).getLast?).map fun a => a.value.getD ""
  dynamicName := (((bindings directives).filter isName).getLast?).map Binding.expression
  attributes := attributes.filter (·.name != "name")
  directives := directives.filter fun d => !((d.binding?.map isName).getD false)
  selfClosing := selfClosing
  location := location
where
  isName (b : Binding) : Bool := b.kind == .prop && b.name == "name"

/-- The element or slot of a start tag with its children. -/
def Node.ofStart (platform : Platform) (tag : String) (attributes : List Attribute)
    (directives : List Directive) (selfClosing : Bool) (location : Location)
    (children : List Node) : Node :=
  if tag = "slot" then .slot (SlotInfo.ofStart attributes directives selfClosing location) children
  else
    let kind := ElementKind.ofTag tag platform
    let isStatic := kind == .native && directives.isEmpty && children.all Node.isStatic
    .element { tag, kind, attributes, directives, selfClosing, isStatic, location } children

/-- Whether a slot has names of both kinds. -/
def Node.hasTwoNames : Node → Bool
  | slot info _ => info.staticName.isSome && info.dynamicName.isSome
  | _ => false

/-- The first loop among directives. -/
def loopOf (directives : List Directive) : Option (Expression × String × Option String) :=
  directives.findSome? fun d =>
    match d.structure? with
    | some (.forEach source item index) => some (source, item, index)
    | _ => none

/-- The first place in a chain among directives. -/
def roleOf (directives : List Directive) : Option ChainRole :=
  directives.findSome? fun d => d.structure?.bind ChainRole.ofStructure?

/-- The node, inside the loop that its directives ask for. -/
def Node.looped (node : Node) (directives : List Directive) (depth : Nat) (location : Location) :
    Node :=
  match loopOf directives with
  | none => node
  | some (source, item, index) => .loop { source, item, index, depth, location } [node]

/-- The grouped siblings, unless a node after them could not be read. A branch that has no chain
comes first in the text. -/
def settle (read : List Sibling × Option Flaw) : Except Flaw (List Node) := do
  let nodes ← group read.1
  match read.2 with
  | none => .ok nodes
  | some flaw => .error flaw

namespace Raw

mutual

/-- The meaning of a node inside `depth` loops. -/
def lower (platform : Platform) (locate : Nat → Location) (depth : Nat) :
    Raw → Except Flaw Sibling
  | text value start => .ok ⟨.text value (locate start), none, start, locate start⟩
  | comment value start => .ok ⟨.comment value (locate start), none, start, locate start⟩
  | interpolation source start => do
    let e ← expressionAt source start
    .ok ⟨.interpolation e none (locate start), none, start, locate start⟩
  | element tag attributes selfClosing start children => do
    let items ← RawAttribute.items locate false false attributes
    let directives := items.filterMap StartItem.directive?
    let depth' := if (loopOf directives).isSome then depth + 1 else depth
    let nodes ← settle (lowerEach platform locate depth' children)
    let node := Node.ofStart platform tag (items.filterMap StartItem.attribute?) directives
      selfClosing (locate start) nodes
    if node.hasTwoNames then .error ⟨.twoSlotNames, start⟩
    else
      .ok ⟨node.looped directives depth (locate start), roleOf directives, start, locate start⟩

/-- The meaning of siblings up to the first that has none. -/
def lowerEach (platform : Platform) (locate : Nat → Location) (depth : Nat) :
    List Raw → List Sibling × Option Flaw
  | [] => ([], none)
  | node :: rest =>
    match lower platform locate depth node with
    | .error flaw => ([], some flaw)
    | .ok s =>
      let (more, flaw) := lowerEach platform locate depth rest
      (s :: more, flaw)

end

end Raw

namespace Template

/-- The tree of a text, or the flaw that keeps it from being a template. -/
def read (options : ParseOptions) (source : List Char) : Except Flaw (List Node) := do
  let raw ← Raw.read source
  let kept := match options.whitespace with
    | .preserve => raw
    | .condense => Raw.condenseAll none raw
  settle (Raw.lowerEach options.platform (Location.locate source) 0 kept)

/-- The tree of a template. -/
def parse (options : ParseOptions) (source : String) : Except ParseError (List Node) :=
  match read options source.toList with
  | .ok nodes => .ok nodes
  | .error flaw => .error (flaw.toError source.toList)

end Template

end UiTemplate
