import UiTemplate.Code.Name

/-!
# Helpers of emitted code

Emitted code reaches the runtime through four helpers and nothing else. `Helper.abi` is the table
that both sides agree on; `HelperSet` says which of them a unit uses.
-/

namespace UiTemplate

/-- A function that emitted code may import from the runtime. -/
inductive Helper where
  | display
  | forEach
  | resolveOutlet
  | mergeBranches
  deriving DecidableEq, Repr

/-- How many arguments a helper takes. -/
inductive Arity where
  | exactly (count : Nat)
  | pairs
  deriving DecidableEq, Repr

/-- What both sides know of a helper. -/
structure HelperAbi where
  helper : Helper
  name : String
  shortName : String
  arity : Arity
  semantics : String

namespace Helper

/-- The number of the agreement; it grows with every change of a name, an arity or a meaning. -/
def abiVersion : Nat := 1

/-- The helpers in the order of the agreement. -/
def all : List Helper := [display, forEach, resolveOutlet, mergeBranches]

/-- The entry of a helper. -/
def abi : Helper → HelperAbi
  | display =>
    ⟨display, "display", "_d", .exactly 1,
      "display(x) -> text; null renders empty, records and lists as indented JSON"⟩
  | forEach =>
    ⟨forEach, "forEach", "_f", .exactly 2,
      "forEach(seq, producer) -> list<record>; producer(item, index, flatIndex); numbers iterate 1..=n, negatives and null yield []"⟩
  | resolveOutlet =>
    ⟨resolveOutlet, "resolveOutlet", "_r", .exactly 3,
      "resolveOutlet(name, extraProps, path) -> node|null; identity is name, or name-path inside loops"⟩
  | mergeBranches =>
    ⟨mergeBranches, "mergeBranches", "_m", .pairs,
      "mergeBranches(cond1, record1, ...) -> record of the first truthy condition, else \x7b\x7d; every argument is a zero-arg producer, evaluated lazily in order"⟩

/-- The name a helper is exported under. -/
def name (h : Helper) : String := h.abi.name

/-- The name emitted code calls a helper by. -/
def shortName (h : Helper) : String := h.abi.shortName

/-- The helper of a name. -/
def ofName? (name : String) : Option Helper :=
  all.find? fun h => h.name == name

/-- Whether a call with `count` arguments fits the helper. Pairs are at least one pair. -/
def accepts (h : Helper) (count : Nat) : Bool :=
  match h.abi.arity with
  | .exactly n => count == n
  | .pairs => 2 ≤ count && count % 2 == 0

/-- The statement that imports helpers under their short names; none if there is nothing to
import. -/
def importStatement (helpers : List Helper) (runtime : String) : Option String :=
  if helpers.isEmpty then none
  else
    let specifiers := helpers.map fun h => h.name ++ " as " ++ h.shortName
    some ("import \x7b " ++ ", ".intercalate specifiers ++ " \x7d from " ++
      Code.literal runtime ++ ";")

/-- A call of a helper. -/
def call (h : Helper) (arguments : List String) : String :=
  h.shortName ++ "(" ++ ", ".intercalate arguments ++ ")"

end Helper

/-- A set of helpers. -/
structure HelperSet where
  display : Bool := false
  forEach : Bool := false
  resolveOutlet : Bool := false
  mergeBranches : Bool := false
  deriving DecidableEq, Repr, Inhabited

namespace HelperSet

/-- No helper. -/
def empty : HelperSet := {}

/-- Whether a helper is in the set. -/
def contains (s : HelperSet) : Helper → Bool
  | .display => s.display
  | .forEach => s.forEach
  | .resolveOutlet => s.resolveOutlet
  | .mergeBranches => s.mergeBranches

/-- The set with one more helper. -/
def insert (s : HelperSet) : Helper → HelperSet
  | .display => { s with display := true }
  | .forEach => { s with forEach := true }
  | .resolveOutlet => { s with resolveOutlet := true }
  | .mergeBranches => { s with mergeBranches := true }

/-- The helpers of the set in the order of the agreement. -/
def toList (s : HelperSet) : List Helper :=
  Helper.all.filter s.contains

/-- A helper is in the set after an insertion if it was inserted or was there before. -/
theorem contains_insert (s : HelperSet) (h k : Helper) :
    (s.insert h).contains k = (decide (k = h) || s.contains k) := by
  cases h <;> cases k <;> rfl

end HelperSet

end UiTemplate
