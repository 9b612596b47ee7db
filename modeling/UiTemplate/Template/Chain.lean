import UiTemplate.Template.Fault
import UiTemplate.Template.Node

/-!
# Chains of branches

Siblings that carry an `if`, an `else if` or an `else` form one node. Comments and blank texts
between two branches of a chain are left out.
-/

namespace UiTemplate

/-- The place of a node among its siblings. -/
inductive ChainRole where
  | onlyIf (condition : Expression)
  | elseIf (condition : Expression)
  | otherwise

/-- A node that was read, and its place among its siblings. -/
structure Sibling where
  node : Node
  role : Option ChainRole
  start : Nat
  location : Location

namespace ChainRole

/-- The place in a chain that a structural directive asks for. -/
def ofStructure? : Structure → Option ChainRole
  | .onlyIf condition => some (onlyIf condition)
  | .elseIf condition => some (elseIf condition)
  | .otherwise => some otherwise
  | .forEach .. => none

/-- The branch of a node in this place. -/
def branch (role : ChainRole) (s : Sibling) : Branch :=
  match role with
  | onlyIf condition => ⟨{ kind := .onlyIf, condition, location := s.location }, [s.node]⟩
  | elseIf condition => ⟨{ kind := .elseIf, condition, location := s.location }, [s.node]⟩
  | otherwise => ⟨{ kind := .otherwise, condition := none, location := s.location }, [s.node]⟩

end ChainRole

/-- A chain that may go on, with the comments and blank texts after its last branch. -/
structure OpenChain where
  branches : List Branch
  location : Location
  parked : List Node

namespace OpenChain

/-- The nodes of a chain that does not go on. -/
def close (c : OpenChain) : List Node :=
  .chain c.branches none c.location :: c.parked

/-- The nodes of a chain that may be there. -/
def closeAll : Option OpenChain → List Node
  | none => []
  | some c => c.close

/-- The chain with one more branch; what was parked before it is left out. -/
def extend (c : OpenChain) (b : Branch) : OpenChain :=
  { c with branches := c.branches ++ [b], parked := [] }

end OpenChain

/-- Whether a node may stand between two branches of a chain. -/
def Node.isSkippable : Node → Bool
  | comment .. => true
  | text value _ => Text.allBlank value.toList
  | _ => false

/-- The siblings with their chains formed, after a chain that may still go on. -/
def groupFrom (chain : Option OpenChain) : List Sibling → Except Flaw (List Node)
  | [] => .ok (OpenChain.closeAll chain)
  | s :: rest =>
    match s.role with
    | some (.onlyIf condition) => do
      let opened := ⟨[(ChainRole.onlyIf condition).branch s], s.location, []⟩
      let more ← groupFrom (some opened) rest
      .ok (OpenChain.closeAll chain ++ more)
    | some (.elseIf condition) =>
      match chain with
      | none => .error ⟨.strayElseIf, s.start⟩
      | some c => groupFrom (some (c.extend ((ChainRole.elseIf condition).branch s))) rest
    | some .otherwise =>
      match chain with
      | none => .error ⟨.strayElse, s.start⟩
      | some c => do
        let more ← groupFrom none rest
        .ok ((c.extend (ChainRole.otherwise.branch s)).close ++ more)
    | none =>
      match chain with
      | none => do
        let more ← groupFrom none rest
        .ok (s.node :: more)
      | some c =>
        if s.node.isSkippable then
          groupFrom (some { c with parked := c.parked ++ [s.node] }) rest
        else do
          let more ← groupFrom none rest
          .ok (c.close ++ s.node :: more)

/-- The siblings with their chains formed. -/
def group (siblings : List Sibling) : Except Flaw (List Node) :=
  groupFrom none siblings

end UiTemplate
