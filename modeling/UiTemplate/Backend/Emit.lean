import UiTemplate.Binding.Thunk
import UiTemplate.Diagnostic

/-!
# Emitting nodes

What the two backends share: a step that may fail and whose state outlives the failure, and the
order of the attributes of an element.
-/

namespace UiTemplate

/-- A step of a backend with the state `σ`. What a failing step did to the state stays. -/
abbrev Emit (σ : Type) := ExceptT Diagnostic (StateM σ)

namespace Emit

variable {σ α : Type}

/-- A step whose failure is a result. -/
def attempt (step : Emit σ α) : Emit σ (Except Diagnostic α) :=
  ExceptT.mk fun s =>
    let (result, s) := step.run s
    (.ok result, s)

/-- A step in a changed state. However it ends, `leave` puts back what was changed, given the state
before and the state after it. -/
def within (enter : σ → σ) (leave : σ → σ → σ) (step : Emit σ α) : Emit σ α :=
  ExceptT.mk fun s =>
    let (result, s') := step.run (enter s)
    (result, leave s s')

/-- Fails at the first directive that is not supported. -/
def checkDirectives (directives : List Directive) (path : Path) : Emit σ Unit :=
  match directives.findSome? fault? with
  | some d => throw d
  | none => pure ()
where
  fault? : Directive → Option Diagnostic
    | .unsupported name _ location => some ⟨.unsupportedDirective name, path, location⟩
    | _ => none

end Emit

/-- Items in the order of the bytes they are written at; items of one byte keep their order. -/
def inTextOrder {α : Type} (items : List (Nat × α)) : List α :=
  (items.mergeSort fun a b => a.1 ≤ b.1).map Prod.snd

end UiTemplate
