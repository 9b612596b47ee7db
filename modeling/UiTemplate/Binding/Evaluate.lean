import UiTemplate.Binding.Thunk
import UiTemplate.Expression.Eval
import UiTemplate.Helper.Meaning

/-!
# The values of bound values

What the code of bound values computes over a rendering context. The values are computed in the
order of the record, and the first failure ends the computation.
-/

namespace UiTemplate

/-- The positions in the given loops, joined by dashes; none outside loops. -/
def Scope.loopPath (scope : Scope) (loops : List Nat) : Option String :=
  if loops.isEmpty then none
  else some ("-".intercalate (loops.map fun d => (scope.lookup (Code.pathVariable d)).toText))

/-- The name of an outlet. -/
def OutletBase.eval (scope : Scope) : OutletBase → Except EvalError String
  | fixed name => .ok name
  | computed e => do
    let v ← e.tree.eval scope
    .ok v.display

/-- The values of what is passed to an outlet. -/
def OutletProp.evalAll (scope : Scope) : List OutletProp → Except EvalError (List (String × Json))
  | [] => .ok []
  | fixed name value :: rest => do
    let more ← evalAll scope rest
    .ok ((name, .str value) :: more)
  | bound name e :: rest => do
    let v ← e.tree.eval scope
    let more ← evalAll scope rest
    .ok ((name, v) :: more)

/-- The identity of an outlet. -/
def evalOutletName (scope : Scope) (base : OutletBase) (loopPath : List Nat) :
    Except EvalError Json := do
  let name ← base.eval scope
  match scope.loopPath loopPath with
  | some path => .ok (.str (name ++ "-" ++ path))
  | none => .ok (.str name)

/-- The outlet that is asked for. -/
def OutletCall.eval (scope : Scope) (call : OutletCall) : Except EvalError Json := do
  let name ← call.base.eval scope
  let props ← OutletProp.evalAll scope call.props
  let slots := (scope.context.get? "$slots").getD .null
  .ok (Helper.outletFor slots name (if props.isEmpty then .null else Json.ofFields props)
    (scope.loopPath call.loopPath))

/-- The scope inside a loop at a step. -/
def Scope.atStep (scope : Scope) (item : String) (index : Option String) (depth : Nat)
    (step : Helper.Step) : Scope :=
  scope.withLocals
    ((item, step.item) :: (index.toList.map fun name => (name, step.index)) ++
      [(Code.pathVariable depth, .nat step.position)])

mutual

/-- The value of a bound value. -/
def Thunk.eval (scope : Scope) : Thunk → Except EvalError Json
  | .field e => e.tree.eval scope
  | .display e => do
    let v ← e.tree.eval scope
    .ok (.str v.display)
  | .loop source item index depth record => do
    let items ← source.tree.eval scope
    let results ← Helper.iterate items fun step => do
      let fields ← Record.evalFields (scope.atStep item index depth step) record
      .ok (Json.ofFields fields)
    .ok (.arr results)
  | .merge branches => Helper.chooseBranch (MergeBranch.producers scope branches)
  | .outletName base loopPath => evalOutletName scope base loopPath
  | .outlet call => call.eval scope

/-- The values of a record, in its order. -/
def Record.evalFields (scope : Scope) :
    List (Key × Thunk) → Except EvalError (List (String × Json))
  | [] => .ok []
  | (key, t) :: rest => do
    let v ← t.eval scope
    let more ← Record.evalFields scope rest
    .ok ((key, v) :: more)

/-- The conditions and records of branches, to be computed on demand. -/
def MergeBranch.producers (scope : Scope) :
    List MergeBranch → List ((Unit → Except EvalError Json) × (Unit → Except EvalError Json))
  | [] => []
  | .mk condition _ record :: rest =>
    (fun _ => match condition with
      | some e => e.tree.eval scope
      | none => .ok (.bool true),
      fun _ => do
        let fields ← Record.evalFields scope record
        .ok (Json.ofFields fields)) :: MergeBranch.producers scope rest

end

namespace BindingContext

/-- The mapping of bound values over a rendering context. -/
def eval (c : BindingContext) (context : Json) : Except EvalError Json := do
  let fields ← Record.evalFields (Scope.ofContext context) c.root
  .ok (Json.ofFields fields)

/-- The value of one key of the mapping. -/
def evalKey (c : BindingContext) (key : Key) (context : Json) : Except EvalError Json :=
  match c.root.get? key with
  | some t => t.eval (Scope.ofContext context)
  | none => .error (.unknownKey key)

end BindingContext

end UiTemplate
