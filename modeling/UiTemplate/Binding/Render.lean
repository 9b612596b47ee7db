import UiTemplate.Binding.Thunk

/-!
# Bound values as code

The code that computes bound values, given the names that are local to the scope. A record is an
object literal with one line a key.
-/

namespace UiTemplate

/-- An object literal on one line. -/
def Code.inlineObject (fields : List String) : String :=
  "\x7b " ++ ", ".intercalate fields ++ " \x7d"

namespace OutletBase

/-- The code of an outlet's name. -/
def render (base : OutletBase) (locals : List String) : String :=
  match base with
  | fixed name => Code.literal name
  | computed e => e.render locals

end OutletBase

namespace OutletProp

/-- The field of a property in the object that is passed to an outlet. -/
def render (locals : List String) : OutletProp → String
  | fixed name value => Code.fieldKey name ++ ": " ++ Code.literal value
  | bound name e => Code.fieldKey name ++ ": " ++ e.render locals

end OutletProp

namespace OutletCall

/-- The object that is passed to an outlet, `null` if there is nothing to pass. -/
def renderProps (call : OutletCall) (locals : List String) : String :=
  if call.props.isEmpty then "null"
  else Code.inlineObject (call.props.map (OutletProp.render locals))

/-- The call that asks for an outlet. -/
def render (call : OutletCall) (locals : List String) : String :=
  Helper.resolveOutlet.call
    [call.base.render locals, call.renderProps locals,
      (Code.loopPath call.loopPath).getD "null"]

end OutletCall

/-- The code of an outlet's identity. -/
def renderOutletName (base : OutletBase) (loopPath : List Nat) (locals : List String) : String :=
  match base, Code.loopPath loopPath with
  | .fixed name, some path => Code.literal (name ++ "-") ++ " + " ++ path
  | .fixed name, none => Code.literal name
  | .computed e, some path => Helper.display.call [e.render locals] ++ " + \"-\" + " ++ path
  | .computed e, none => Helper.display.call [e.render locals]

/-- An object literal with one line a field, at a level of indentation. -/
def Code.object (level : Nat) (fields : List String) : String :=
  if fields.isEmpty then "\x7b\x7d"
  else
    "\x7b\n" ++ ",\n".intercalate (fields.map fun f => Code.indent (level + 1) ++ f) ++ "\n" ++
      Code.indent level ++ "\x7d"

mutual

/-- The code of a bound value that starts on a line at a level of indentation. -/
def Thunk.render (locals : List String) (level : Nat) : Thunk → String
  | .field e => e.render locals
  | .display e => Helper.display.call [e.render locals]
  | .loop source item index depth record =>
    let params := [item, index.getD "_", Code.pathVariable depth]
    Helper.forEach.call
      [source.render locals,
        "(" ++ ", ".intercalate params ++ ") => \x7b\n" ++ Code.indent (level + 1) ++ "return " ++
          Code.object (level + 1) (Record.renderFields (locals ++ params) (level + 2) record) ++
          ";\n" ++ Code.indent level ++ "\x7d"]
  | .merge branches => Helper.mergeBranches.call (MergeBranch.renderAll locals level branches)
  | .outletName base loopPath => renderOutletName base loopPath locals
  | .outlet call => call.render locals

/-- The fields of a record's object literal, each at a level of indentation. -/
def Record.renderFields (locals : List String) (level : Nat) : List (Key × Thunk) → List String
  | [] => []
  | (key, t) :: rest =>
    (key ++ ": " ++ t.render locals level) :: Record.renderFields locals level rest

/-- The producers of the conditions and records of branches. -/
def MergeBranch.renderAll (locals : List String) (level : Nat) : List MergeBranch → List String
  | [] => []
  | .mk condition _ record :: rest =>
    ("() => " ++ (condition.map fun e => e.render locals).getD "true") ::
      ("() => (" ++ Code.object level (Record.renderFields locals (level + 1) record) ++ ")") ::
      MergeBranch.renderAll locals level rest

end

/-- The code of a record at a level of indentation. -/
def Record.render (locals : List String) (level : Nat) (record : Record) : String :=
  Code.object level (Record.renderFields locals (level + 1) record)

/-- The module whose function computes the mapping of bound values from the rendering context. -/
def BindingContext.functionSource (c : BindingContext) (runtime : String) : String :=
  let imports := match Helper.importStatement c.helpers.toList runtime with
    | some statement => statement ++ "\n"
    | none => ""
  imports ++ "export default function bindings(_ctx) \x7b\n  return " ++ c.root.render [] 1 ++
    ";\n\x7d\n"

end UiTemplate
