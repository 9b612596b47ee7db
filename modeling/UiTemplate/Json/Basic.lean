/-!
# JSON values

The values a template is rendered with, and the form in which trees and options are stored. Numbers
keep whether they are integers. The entries of an object are in ascending order of their keys, one
entry a key; `Json.canonical` brings a document that was read into this form.
-/

namespace UiTemplate

/-- A JSON value. -/
inductive Json where
  | null
  | bool (value : Bool)
  | int (value : Int)
  | float (value : Float)
  | str (value : String)
  | arr (items : List Json)
  | obj (entries : List (String × Json))
  deriving Inhabited

namespace Json

/-- The value under a key, in a list of entries. -/
def lookup (key : String) : List (String × Json) → Option Json
  | [] => none
  | (k, v) :: rest => if k = key then some v else lookup key rest

/-- Sets the value under a key. Keys stay in ascending order, and a later value for a key replaces
an earlier one. -/
def insert (key : String) (value : Json) : List (String × Json) → List (String × Json)
  | [] => [(key, value)]
  | (k, v) :: rest =>
    if key < k then (key, value) :: (k, v) :: rest
    else if key = k then (key, value) :: rest
    else (k, v) :: insert key value rest

/-- The object with the given fields, of which a later one wins over an earlier one of its name. -/
def ofFields (fields : List (String × Json)) : Json :=
  .obj (fields.foldl (fun entries f => insert f.1 f.2 entries) [])

/-- The value an object has under a key; no other value has any. -/
def get? : Json → String → Option Json
  | .obj entries, key => lookup key entries
  | _, _ => none

/-- Whether a value is `null`. -/
def isNull : Json → Bool
  | .null => true
  | _ => false

mutual

/-- The same value with the entries of every object in ascending order, the last one of each key. -/
def canonical : Json → Json
  | .arr items => .arr (canonicalItems items)
  | .obj entries => ofFields (canonicalEntries entries)
  | v => v

/-- `canonical` for the items of an array. -/
def canonicalItems : List Json → List Json
  | [] => []
  | v :: rest => v.canonical :: canonicalItems rest

/-- `canonical` for the values of an object. -/
def canonicalEntries : List (String × Json) → List (String × Json)
  | [] => []
  | (k, v) :: rest => (k, v.canonical) :: canonicalEntries rest

end

/-- An optional value, `null` when absent. -/
def ofOption {α : Type} (encode : α → Json) : Option α → Json
  | none => .null
  | some a => encode a

/-- An array of encoded values. -/
def ofList {α : Type} (encode : α → Json) (items : List α) : Json :=
  .arr (items.map encode)

/-- A natural number as a value. -/
def nat (n : Nat) : Json :=
  .int n

end Json

end UiTemplate
