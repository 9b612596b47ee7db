import UiTemplate.Binding.Extract
import UiTemplate.Proofs.Template.Tree

/-!
# The bound parts of a tree

What a tree with keys binds, read off the tree alone: every part with the key that the tree carries
for it and with how it is computed.

- `Node.parts`: the parts in the scope of a node, in the order of the text. What lies in the
  branches of a chain or in a loop is in a record of its own, inside the part that the chain or the
  loop is.
- `Node.numbered`: the parts whose keys are numbered together with the ones of the scope, in the
  order of the text. Those in branches are among them, those in loops only if keys are not numbered
  anew there.
-/

namespace UiTemplate

/-- A bound part of a tree: the key that the tree carries for it, and how it is computed. -/
abbrev Part := Option Key × Thunk

/-- The record of parts, in their order. -/
def Record.ofParts (parts : List Part) : Record :=
  parts.filterMap fun p => p.1.map (·, p.2)

@[simp] theorem Record.ofParts_nil : Record.ofParts [] = [] := rfl

theorem Record.ofParts_cons (k : Key) (t : Thunk) (parts : List Part) :
    Record.ofParts ((some k, t) :: parts) = (k, t) :: Record.ofParts parts := rfl

theorem Record.ofParts_append (parts parts' : List Part) :
    Record.ofParts (parts ++ parts') = Record.ofParts parts ++ Record.ofParts parts' :=
  List.filterMap_append

/-- The part that a directive binds. The handlers of events are not bound. -/
def Directive.part? : Directive → Option Part
  | .binding b => if b.kind = .event then none else some (b.key, .field b.expression)
  | _ => none

/-- The parts that directives bind, in their order. -/
def directiveParts (directives : List Directive) : List Part :=
  directives.filterMap Directive.part?

namespace SlotInfo

/-- How the identity of a slot's outlet is computed. Only markup refers to it, and only inside loops
or if the name of the outlet is computed. -/
def identity? (family : Family) (slot : SlotInfo) : Option Thunk :=
  match family, slot.resolution with
  | .markup, some r =>
    match r.base with
    | .fixed _ => if r.isIterated then some (.outletName r.base r.loopPath) else none
    | .computed e => some (if r.isIterated then .outletName r.base r.loopPath else .display e)
  | _, _ => none

/-- How a slot's outlet is asked for. In markup this is bound only inside loops or if something is
passed to the outlet. -/
def outlet? (family : Family) (slot : SlotInfo) : Option Thunk :=
  match slot.resolution with
  | some r =>
    if family = .calls || r.isIterated || !slot.props.isEmpty then
      some (.outlet ⟨r.base, slot.props, r.loopPath⟩)
    else none
  | none => none

/-- The parts of a slot: the identity of its outlet, and the outlet. -/
def parts (family : Family) (slot : SlotInfo) : List Part :=
  (slot.identity? family).toList.map (slot.keys.name, ·) ++
    (slot.outlet? family).toList.map (slot.keys.outlet, ·)

end SlotInfo

/-- The part that the condition of a branch is. -/
def BranchInfo.parts (info : BranchInfo) : List Part :=
  info.condition.toList.map fun e => (info.key, .field e)

mutual

/-- The parts in the scope of a node, in the order of the text. -/
def Node.parts (family : Family) : Node → List Part
  | .element info children => directiveParts info.directives ++ Node.partsAll family children
  | .text .. => []
  | .interpolation expression key _ => [(key, .display expression)]
  | .slot info fallback => info.parts family ++ Node.partsAll family fallback
  | .chain branches key _ => [(key, .merge (Branch.mergedAll family branches))]
  | .loop info children =>
    [(info.key, .loop info.source info.item info.index info.depth
      (Record.ofParts (Node.partsAll family children)))]
  | .comment .. => []

/-- The parts in the scope of nodes. -/
def Node.partsAll (family : Family) : List Node → List Part
  | [] => []
  | n :: rest => n.parts family ++ Node.partsAll family rest

/-- The branches of a chain with the records of their scopes. -/
def Branch.mergedAll (family : Family) : List Branch → List MergeBranch
  | [] => []
  | .mk info children :: rest =>
    .mk info.condition info.key (Record.ofParts (info.parts ++ Node.partsAll family children)) ::
      Branch.mergedAll family rest

end

/-- The parts in the scope of a branch. -/
def Branch.parts (family : Family) : Branch → List Part
  | .mk info children => info.parts ++ Node.partsAll family children

mutual

/-- The parts of a node whose keys are numbered together with those of its scope. -/
def Node.numbered (capabilities : Capabilities) : Node → List Part
  | .element info children =>
    directiveParts info.directives ++ Node.numberedAll capabilities children
  | .text .. => []
  | .interpolation expression key _ => [(key, .display expression)]
  | .slot info fallback =>
    info.parts capabilities.family ++ Node.numberedAll capabilities fallback
  | .chain branches key _ =>
    (key, .merge (Branch.mergedAll capabilities.family branches)) ::
      Branch.numberedAll capabilities branches
  | .loop info children =>
    (info.key, .loop info.source info.item info.index info.depth
      (Record.ofParts (Node.partsAll capabilities.family children))) ::
      (if capabilities.localKeys then [] else Node.numberedAll capabilities children)
  | .comment .. => []

/-- The parts of nodes whose keys are numbered together. -/
def Node.numberedAll (capabilities : Capabilities) : List Node → List Part
  | [] => []
  | n :: rest => n.numbered capabilities ++ Node.numberedAll capabilities rest

/-- The parts of branches whose keys are numbered together. -/
def Branch.numberedAll (capabilities : Capabilities) : List Branch → List Part
  | [] => []
  | .mk info children :: rest =>
    info.parts ++ Node.numberedAll capabilities children ++ Branch.numberedAll capabilities rest

end

end UiTemplate
