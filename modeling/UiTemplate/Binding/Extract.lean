import UiTemplate.Binding.Key
import UiTemplate.Binding.Thunk
import UiTemplate.Outlet.Resolve

/-!
# Extracting bound values

A walk in the order of the text gives every bound value a key and collects how it is computed. The
keys are written into the tree, for whoever refers to the values. Where the family asks for it, keys
are numbered anew inside every loop.
-/

namespace UiTemplate

/-- How far keys are given out, and which helpers are needed so far. -/
structure Allocation where
  next : Nat := 0
  helpers : HelperSet := {}

/-- A step of the walk. -/
abbrev Extract := StateM Allocation

namespace Extract

/-- The next key. -/
def freshKey : Extract Key := fun a =>
  (Key.number a.next, { a with next := a.next + 1 })

/-- Notes that a helper is needed. -/
def uses (h : Helper) : Extract Unit :=
  modify fun a => { a with helpers := a.helpers.insert h }

/-- A bound value under the next key. -/
def bind (t : Thunk) : Extract (Key × Record) := do
  let key ← freshKey
  return (key, [(key, t)])

/-- A step inside a loop. -/
def inLoop {α : Type} (capabilities : Capabilities) (step : Extract α) : Extract α := do
  if capabilities.localKeys then
    let outer := (← get).next
    modify fun a => { a with next := 0 }
    let result ← step
    modify fun a => { a with next := outer }
    return result
  else step

end Extract

open Extract

/-- The directives with keys. The handlers of events are not bound values. -/
def extractDirectives : List Directive → Extract (List Directive × Record)
  | [] => return ([], [])
  | .binding b :: rest =>
    if b.kind == .event then do
      let (directives, record) ← extractDirectives rest
      return (.binding b :: directives, record)
    else do
      let (key, entry) ← Extract.bind (.field b.expression)
      let (directives, record) ← extractDirectives rest
      return (.binding { b with key := some key } :: directives, entry ++ record)
  | d :: rest => do
    let (directives, record) ← extractDirectives rest
    return (d :: directives, record)

/-- What a slot passes to its outlet: its attributes, then its bound values. -/
def SlotInfo.props (slot : SlotInfo) : List OutletProp :=
  (slot.attributes.map fun a => .fixed a.name (a.value.getD "")) ++
    (bindings slot.directives).map fun b => .bound b.name b.expression

/-- The outlet of a slot under a key. -/
def extractOutlet (slot : SlotInfo) (r : Resolution) : Extract (SlotInfo × Record) := do
  uses .resolveOutlet
  let (key, entry) ← Extract.bind (.outlet ⟨r.base, slot.props, r.loopPath⟩)
  return ({ slot with keys := { slot.keys with outlet := some key } }, entry)

/-- The identity of a slot's outlet under a key, where markup has to refer to it. -/
def extractIdentity (slot : SlotInfo) (r : Resolution) : Extract (SlotInfo × Record) := do
  let named (t : Thunk) : Extract (SlotInfo × Record) := do
    let (key, entry) ← Extract.bind t
    return ({ slot with keys := { slot.keys with name := some key } }, entry)
  match r.base with
  | .fixed _ =>
    if r.isIterated then named (.outletName r.base r.loopPath) else return (slot, [])
  | .computed e =>
    uses .display
    if r.isIterated then named (.outletName r.base r.loopPath) else named (.display e)

/-- The slot with its keys. In markup an outlet is bound only if it is in a loop or is passed
something. A slot that is not resolved has no keys. -/
def extractSlot (capabilities : Capabilities) (slot : SlotInfo) : Extract (SlotInfo × Record) :=
  match slot.resolution with
  | none => return (slot, [])
  | some r =>
    match capabilities.family with
    | .calls => extractOutlet slot r
    | .markup => do
      let (slot, identity) ← extractIdentity slot r
      if r.isIterated || !slot.props.isEmpty then
        let (slot, outlet) ← extractOutlet slot r
        return (slot, identity ++ outlet)
      else return (slot, identity)

/-- The condition of a branch under a key. -/
def extractCondition : Option Expression → Extract (Option Key × Record)
  | none => return (none, [])
  | some e => do
    let (key, entry) ← Extract.bind (.field e)
    return (some key, entry)

mutual

/-- The node with keys, and its bound values. -/
def Node.extract (capabilities : Capabilities) : Node → Extract (Node × Record)
  | .element info children => do
    let (directives, own) ← extractDirectives info.directives
    let (children, record) ← Node.extractAll capabilities children
    return (.element { info with directives } children, own ++ record)
  | .text value location => return (.text value location, [])
  | .interpolation expression _ location => do
    uses .display
    let (key, entry) ← Extract.bind (.display expression)
    return (.interpolation expression (some key) location, entry)
  | .slot info fallback => do
    let (info, own) ← extractSlot capabilities info
    let (fallback, record) ← Node.extractAll capabilities fallback
    return (.slot info fallback, own ++ record)
  | .chain branches _ location => do
    let key ← freshKey
    let (branches, merged) ← Branch.extractAll capabilities branches
    uses .mergeBranches
    return (.chain branches (some key) location, [(key, .merge merged)])
  | .loop info children => do
    let key ← freshKey
    let (children, record) ← inLoop capabilities (Node.extractAll capabilities children)
    uses .forEach
    return (.loop { info with key := some key } children,
      [(key, .loop info.source info.item info.index info.depth record)])
  | .comment value location => return (.comment value location, [])

/-- The nodes with keys, and their bound values. -/
def Node.extractAll (capabilities : Capabilities) : List Node → Extract (List Node × Record)
  | [] => return ([], [])
  | n :: rest => do
    let (n, own) ← n.extract capabilities
    let (rest, record) ← Node.extractAll capabilities rest
    return (n :: rest, own ++ record)

/-- The branches with keys, and the records of their scopes. -/
def Branch.extractAll (capabilities : Capabilities) :
    List Branch → Extract (List Branch × List MergeBranch)
  | [] => return ([], [])
  | .mk info children :: rest => do
    let (key, own) ← extractCondition info.condition
    let (children, record) ← Node.extractAll capabilities children
    let (branches, merged) ← Branch.extractAll capabilities rest
    return (.mk { info with key } children :: branches,
      .mk info.condition key (own ++ record) :: merged)

end

/-- The tree with keys, and its bound values. -/
def Template.extract (capabilities : Capabilities) (nodes : List Node) :
    List Node × BindingContext :=
  let ((nodes, root), allocation) := (Node.extractAll capabilities nodes).run {}
  (nodes, ⟨root, allocation.helpers, capabilities.localKeys⟩)

end UiTemplate
