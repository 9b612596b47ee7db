import UiTemplate.Helper.Abi
import UiTemplate.Json.Coercion

/-!
# What the helpers compute

The meaning of the helpers over rendering values: iteration, the identity of outlets, and the choice
among branches. How a value is displayed is in `Json.display`.
-/

namespace UiTemplate.Helper

open Json Decimal

/-- What a producer is called with: the item, its index or key, and its position. -/
structure Step where
  item : Json
  index : Json
  position : Nat

/-- The steps of an iteration over items with their indices, from a position on. -/
def steps (position : Nat) : List (Json × Json) → List Step
  | [] => []
  | (item, index) :: rest => ⟨item, index, position⟩ :: steps (position + 1) rest

/-- Items numbered from zero on. -/
def numbered (items : List Json) : List (Json × Json) :=
  items.zip ((List.range items.length).map Json.nat)

/-- The numbers from one up to a number. -/
def countUp (x : Float) : List Json :=
  (List.range (Parts.ofFloat x).ceil).map fun i => .nat (i + 1)

/-- What an iteration goes through: the items of an array, the characters of a text, the numbers up
to a number, the values of an object with their keys. All else has nothing. -/
def iteration (source : Json) : List Step :=
  match source with
  | .arr items => steps 0 (numbered items)
  | .str s => steps 0 (numbered (s.toList.map fun c => .str (String.ofList [c])))
  | .int n => steps 0 (numbered (countUp (Float.ofInt n)))
  | .float x => steps 0 (numbered (countUp x))
  | .obj entries => steps 0 (entries.map fun entry => (entry.2, .str entry.1))
  | .null | .bool _ => []

/-- The results of a producer at every step; the first failure ends the iteration. -/
def iterate {ε : Type} (source : Json) (producer : Step → Except ε Json) : Except ε (List Json) :=
  (iteration source).mapM producer

/-- The identity of an outlet: its name and the positions in the loops around it, joined by
dashes. -/
def outletIdentity (base : String) (path : List Nat) : String :=
  path.foldl (fun identity i => identity ++ "-" ++ natText i) base

/-- Whether an outlet is given content. -/
def isProvided (slots : Json) (name : String) : Bool :=
  ((slots.get? name).map isTruthy).getD false

/-- The outlet of a name, given the content of the outlets: `null` without content for the name and
for its identity. -/
def outletFor (slots : Json) (name : String) (props : Json) (path : Option String) : Json :=
  let identity := match path with
    | some p => if p = "" then name else name ++ "-" ++ p
    | none => name
  if isProvided slots name || isProvided slots identity then
    Json.ofFields [("name", .str identity), ("props", props)]
  else .null

/-- The record of the first branch whose condition holds, the empty record without one. No later
condition and no other record is evaluated. -/
def chooseBranch {ε : Type} :
    List ((Unit → Except ε Json) × (Unit → Except ε Json)) → Except ε Json
  | [] => .ok (.obj [])
  | (condition, record) :: rest => do
    let c ← condition ()
    if c.isTruthy then record () else chooseBranch rest

end UiTemplate.Helper
