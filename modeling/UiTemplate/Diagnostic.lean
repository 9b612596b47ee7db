import UiTemplate.Platform
import UiTemplate.Template.Location

/-!
# Templates that cannot be compiled

A fault says why a node cannot be compiled. Faults fall into classes; each class has a code, and
protects a guarantee that emitted code gives.
-/

namespace UiTemplate

/-- A class of faults. -/
inductive FaultClass where
  | unsupportedDirective
  | targetUnsupported
  | slotCollision
  | emissionMode
  | directiveConflict
  | slotEvent
  deriving DecidableEq, Repr

namespace FaultClass

/-- All classes. -/
def all : List FaultClass :=
  [unsupportedDirective, targetUnsupported, slotCollision, emissionMode, directiveConflict,
    slotEvent]

/-- The code of a class. -/
def code : FaultClass → String
  | unsupportedDirective => "E-CODEGEN-001"
  | targetUnsupported => "E-CODEGEN-002"
  | slotCollision => "E-CODEGEN-003"
  | emissionMode => "E-CODEGEN-004"
  | directiveConflict => "E-CODEGEN-005"
  | slotEvent => "E-CODEGEN-006"

/-- What the class protects. -/
def guarantee : FaultClass → String
  | unsupportedDirective =>
    "Every directive in the template is understood by the backend; none are dropped."
  | targetUnsupported => "A construct the target cannot express is rejected rather than degraded."
  | slotCollision => "Outlet identities are unique within one nesting domain."
  | emissionMode => "The emission mode matches what the platform family can execute."
  | directiveConflict => "An element's content has exactly one source."
  | slotEvent => "Outlets forward props only; they do not own event listeners."

/-- What the class of a code protects. -/
def describe (code : String) : String :=
  match all.find? fun c => c.code == code with
  | some c => c.guarantee
  | none => "Unknown error code."

end FaultClass

/-- Why a node cannot be compiled. -/
inductive CompileFault where
  | unsupportedDirective (name : String)
  | unresolvedSlot
  | handlerNotNamed (event : String)
  | htmlInMarkup
  | collision (outlet : String) (other : Path)
  | emissionMode (platform : Platform) (mode : EmissionMode)
  | htmlAndChildren (tag : String)
  | eventOnSlot (event : String)
  deriving DecidableEq, Repr

namespace CompileFault

/-- The class of a fault. -/
def faultClass : CompileFault → FaultClass
  | unsupportedDirective _ => .unsupportedDirective
  | unresolvedSlot => .targetUnsupported
  | handlerNotNamed _ => .targetUnsupported
  | htmlInMarkup => .targetUnsupported
  | collision .. => .slotCollision
  | emissionMode .. => .emissionMode
  | htmlAndChildren _ => .directiveConflict
  | eventOnSlot _ => .slotEvent

/-- The wording of a fault. -/
def reason : CompileFault → String
  | unsupportedDirective name => "directive `" ++ name ++ "` is not supported"
  | unresolvedSlot => "slot outlet was not resolved"
  | handlerNotNamed event =>
    "handler for `@" ++ event ++ "` must name a method on markup targets"
  | htmlInMarkup => "v-html cannot be expressed in mini-program markup"
  | collision outlet other =>
    "outlet `" ++ outlet ++ "` collides with the outlet at " ++ other.display ++
      " in the same scope"
  | emissionMode platform mode =>
    "platform `" ++ platform.name ++ "` cannot be emitted as " ++ mode.title
  | htmlAndChildren tag => "<" ++ tag ++ "> has both v-html and child content"
  | eventOnSlot event => "event `@" ++ event ++ "` cannot be bound on <slot>"

end CompileFault

/-- A fault with the node at fault and the place in the text. -/
structure Diagnostic where
  fault : CompileFault
  path : Path
  location : Location
  deriving DecidableEq, Repr

namespace Diagnostic

/-- The wording of the report. -/
def message (d : Diagnostic) : String :=
  "[" ++ d.fault.faultClass.code ++ "] " ++ d.fault.reason ++ " (node " ++ d.path.display ++ ", " ++
    d.location.display ++ ")"

/-- The wording of several reports: the first one, and how many follow. -/
def summary : List Diagnostic → String
  | [] => "codegen failed"
  | [d] => d.message
  | d :: rest => d.message ++ " (and " ++ Decimal.natText rest.length ++ " more)"

end Diagnostic

end UiTemplate
