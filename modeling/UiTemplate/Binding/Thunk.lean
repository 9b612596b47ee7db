import UiTemplate.Helper.Abi
import UiTemplate.Template.Node

/-!
# Bound values

A record gives, for one scope, the keys of the bound values in the order of the text, and for each
how it is computed. Loops and chains hold the records of their own scopes.
-/

namespace UiTemplate

/-- A property that a slot passes to its outlet. -/
inductive OutletProp where
  | fixed (name value : String)
  | bound (name : String) (expression : Expression)

/-- The name of the property. -/
def OutletProp.name : OutletProp → String
  | fixed name _ => name
  | bound name _ => name

/-- An outlet that is asked for: its name, what is passed to it, and the loops around it. -/
structure OutletCall where
  base : OutletBase
  props : List OutletProp
  loopPath : List Nat

mutual

/-- How a bound value is computed. -/
inductive Thunk where
  | field (expression : Expression)
  | display (expression : Expression)
  | loop (source : Expression) (item : String) (index : Option String) (depth : Nat)
      (record : List (Key × Thunk))
  | merge (branches : List MergeBranch)
  | outletName (base : OutletBase) (loopPath : List Nat)
  | outlet (call : OutletCall)

/-- A branch of a chain with the record of its scope. The last branch may have no condition. -/
inductive MergeBranch where
  | mk (condition : Option Expression) (conditionKey : Option Key) (record : List (Key × Thunk))

end

/-- The bound values of one scope in the order of the text. -/
abbrev Record := List (Key × Thunk)

namespace Record

/-- The value of a key in this scope. -/
def get? (key : Key) : Record → Option Thunk
  | [] => none
  | (k, t) :: rest => if k = key then some t else get? key rest

end Record

mutual

/-- The value of a key in a record or in one inside it. -/
def Record.find? (key : Key) : List (Key × Thunk) → Option Thunk
  | [] => none
  | (k, t) :: rest =>
    if k = key then some t
    else match Thunk.find? key t with
      | some found => some found
      | none => Record.find? key rest

/-- The value of a key in the records inside a bound value. -/
def Thunk.find? (key : Key) : Thunk → Option Thunk
  | .field _ => none
  | .display _ => none
  | .loop _ _ _ _ record => Record.find? key record
  | .merge branches => MergeBranch.find? key branches
  | .outletName .. => none
  | .outlet _ => none

/-- The value of a key in the records of branches. -/
def MergeBranch.find? (key : Key) : List MergeBranch → Option Thunk
  | [] => none
  | .mk _ _ record :: rest =>
    match Record.find? key record with
    | some found => some found
    | none => MergeBranch.find? key rest

end

/-- The bound values of a template, the helpers that computing them takes, and whether keys are
unique only within a scope. -/
structure BindingContext where
  root : Record
  helpers : HelperSet
  localKeys : Bool

namespace BindingContext

/-- The value of a key. Where keys are unique in the whole template, inner scopes are searched as
well. -/
def thunk? (c : BindingContext) (key : Key) : Option Thunk :=
  if c.localKeys then c.root.get? key else Record.find? key c.root

end BindingContext

end UiTemplate
