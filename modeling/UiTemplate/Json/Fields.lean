import UiTemplate.Json.Basic

/-!
# Records in JSON

How records and variants are stored. A record is an object, or an array of its fields in their
order. Fields that are not known do not count; a known field that is given twice is an error. A
variant is told apart by a tag, which is one more field of its record.
-/

namespace UiTemplate.Json

/-- The fields of a record that are present. -/
structure Fields where
  present : List (String × Json)
  positional : Bool

/-- Whether no key is given twice. -/
def hasDistinctKeys : List (String × Json) → Bool
  | [] => true
  | (k, _) :: rest => (lookup k rest).isNone && hasDistinctKeys rest

/-- The fields that a value has of those with the given names. -/
def fields? (names : List String) : Json → Option Fields
  | .obj entries =>
    let known := entries.filter fun e => names.contains e.1
    if hasDistinctKeys known then some ⟨known, false⟩ else none
  | .arr items => if names.length < items.length then none else some ⟨names.zip items, true⟩
  | _ => none

namespace Fields

/-- A field that must be present. -/
def required {α : Type} (f : Fields) (name : String) (decode? : Json → Option α) : Option α := do
  let v ← lookup name f.present
  decode? v

/-- A field with a value to take if it is missing. -/
def withDefault {α : Type} (f : Fields) (name : String) (decode? : Json → Option α) (default : α) :
    Option α :=
  match lookup name f.present with
  | none => some default
  | some v => decode? v

/-- A value that may be `null`. -/
def orNull {α : Type} (decode? : Json → Option α) (v : Json) : Option (Option α) :=
  if v.isNull then some none else (decode? v).map some

/-- A field that may be `null`. In an object it may be missing as well. -/
def nullable {α : Type} (f : Fields) (name : String) (decode? : Json → Option α) :
    Option (Option α) :=
  match lookup name f.present with
  | none => if f.positional then none else some none
  | some v => orNull decode? v

end Fields

/-- The tag of a variant, and what is left without it. -/
def tagged? (tag : String) : Json → Option (String × Json)
  | .obj entries =>
    match entries.filter fun e => e.1 == tag with
    | [(_, .str name)] => some (name, .obj (entries.filter fun e => e.1 != tag))
    | _ => none
  | .arr (.str name :: items) => some (name, .arr items)
  | _ => none

/-! ## Scalars -/

/-- A text. -/
def str? : Json → Option String
  | .str s => some s
  | _ => none

/-- A truth value. -/
def bool? : Json → Option Bool
  | .bool b => some b
  | _ => none

/-- A natural number below a bound. -/
def natBelow? (bound : Nat) : Json → Option Nat
  | .int (.ofNat n) => if n < bound then some n else none
  | _ => none

/-- A list. -/
def list? {α : Type} (decode? : Json → Option α) : Json → Option (List α)
  | .arr items => items.mapM decode?
  | _ => none

/-- The name of a variant without fields: a text, or an object with the name as its key and nothing
under it. -/
def variant? (isNothing : Json → Bool) : Json → Option String
  | .str name => some name
  | .obj [(name, v)] => if isNothing v then some name else none
  | _ => none

/-! ## Nesting -/

mutual

/-- How deep arrays and objects are nested in a value. -/
def depth : Json → Nat
  | .arr items => itemsDepth items + 1
  | .obj entries => entriesDepth entries + 1
  | _ => 0

/-- The greatest depth among items. -/
def itemsDepth : List Json → Nat
  | [] => 0
  | v :: rest => max (depth v) (itemsDepth rest)

/-- The greatest depth among entries. -/
def entriesDepth : List (String × Json) → Nat
  | [] => 0
  | (_, v) :: rest => max (depth v) (entriesDepth rest)

end

/-- How deep arrays and objects may be nested in a text that is read. -/
def maxDepth : Nat := 127

end UiTemplate.Json
