import UiTemplate.Template.Node

/-!
# Outlines

A tree as one line a node, in the order of the text: the path to the node and what it is. A node
that renders without a dynamic value has a line more.
-/

namespace UiTemplate

/-- A truth value as it is shown. -/
def truthText (b : Bool) : String :=
  if b then "true" else "false"

/-- What a node is, without the nodes below it. -/
def Node.summary : Node → String
  | .element info _ => "element " ++ info.tag
  | .text value _ => "text " ++ value
  | .interpolation expression _ _ => "interpolation " ++ expression.source
  | .slot info _ => "slot props=" ++ truthText info.hasProps
  | .chain branches _ _ =>
    "group " ++ Decimal.natText branches.length ++ " else=" ++
      truthText ((branches.getLast?.map fun b => b.info.kind == .otherwise).getD false)
  | .loop info _ => "for " ++ ",".intercalate info.locals
  | .comment value _ => "comment " ++ value

/-- Where a node stands. -/
def Node.location : Node → Location
  | .element info _ => info.location
  | .text _ location => location
  | .interpolation _ _ location => location
  | .slot info _ => info.location
  | .chain _ _ location => location
  | .loop info _ => info.location
  | .comment _ location => location

/-- The lines of a node itself. -/
def Node.lines (path : Path) (node : Node) : List String :=
  let line := path.display ++ " " ++ node.summary
  if node.isStatic then [path.display ++ " static@" ++ node.location.display, line] else [line]

mutual

/-- The outline of a node. -/
def Node.outline (path : Path) : Node → List String
  | .element info children =>
    Node.lines path (.element info children) ++ Node.outlineAll path 0 children
  | .text value location => Node.lines path (.text value location)
  | .interpolation expression key location =>
    Node.lines path (.interpolation expression key location)
  | .slot info fallback => Node.lines path (.slot info fallback) ++ Node.outlineAll path 0 fallback
  | .chain branches key location =>
    Node.lines path (.chain branches key location) ++ Branch.outlineAll path 0 branches
  | .loop info children => Node.lines path (.loop info children) ++ Node.outlineAll path 0 children
  | .comment value location => Node.lines path (.comment value location)

/-- The outline of the children of a node from an index on. -/
def Node.outlineAll (parent : Path) (index : Nat) : List Node → List String
  | [] => []
  | n :: rest => Node.outline (parent.child index) n ++ Node.outlineAll parent (index + 1) rest

/-- The outline of the branches of a chain from an index on. -/
def Branch.outlineAll (parent : Path) (index : Nat) : List Branch → List String
  | [] => []
  | .mk _ children :: rest =>
    Node.outlineAll (parent.child index) 0 children ++ Branch.outlineAll parent (index + 1) rest

end

/-- The outline of a tree. -/
def Template.outline (nodes : List Node) : List String :=
  Node.outlineAll [] 0 nodes

end UiTemplate
