import UiTemplate.Backend.Calls
import UiTemplate.Backend.Markup
import UiTemplate.Binding.Extract

/-!
# Compiling templates

A template is read, its slots are resolved, its bound values are extracted, and the backend of the
platform's family emits it. Every compilation stands alone.
-/

namespace UiTemplate

/-- What a compilation emits. -/
inductive CompileOutput where
  | function (code : String)
  | pair (markup bindingFunction : String)
  deriving DecidableEq, Repr

/-- The result of a compilation: the output, the helpers it uses, the outlets of the template, and
the faults that were tolerated. -/
structure CompileResult where
  output : CompileOutput
  helpers : List Helper
  outlets : List OutletSummary
  errors : List Diagnostic

/-- Why a compilation fails. -/
inductive CompileError where
  | parse (error : ParseError)
  | codegen (errors : List Diagnostic)
  deriving DecidableEq, Repr

/-- The wording of the failure. -/
def CompileError.message : CompileError → String
  | parse e => e.message
  | codegen errors => Diagnostic.summary errors

/-- A tree with slots resolved and keys given out. -/
structure Annotated where
  nodes : List Node
  report : SlotReport
  context : BindingContext

namespace Template

/-- The tree as the backend of a family needs it. -/
def annotate (capabilities : Capabilities) (nodes : List Node) : Annotated :=
  let (annotated, context) := extract capabilities (resolveSlots capabilities nodes)
  ⟨annotated, Outlet.report capabilities nodes, context⟩

end Template

namespace CompileOptions

/-- What the call backend needs of the options. -/
def callSettings (o : CompileOptions) (resolver : Resolver) (context : BindingContext) :
    CallSettings where
  platform := o.platform
  context := context
  resolver := resolver
  hoistStatic := o.hoistStatic
  tolerant := o.partialOutput

/-- What the markup backend needs of the options. -/
def markupSettings (o : CompileOptions) : MarkupSettings where
  dialect := .ofPlatform o.platform
  defaultOutlet := o.platform.capabilities.defaultOutlet
  tolerant := o.partialOutput

end CompileOptions

/-- The output of the backend, the helpers it uses and the faults it tolerated. -/
def emitOutput (resolver : Resolver) (o : CompileOptions) (a : Annotated) :
    Except Diagnostic (CompileOutput × HelperSet × List Diagnostic) :=
  match o.platform.family with
  | .calls => do
    let (unit, errors) ← Calls.generate (o.callSettings resolver a.context) a.nodes
    .ok (.function (unit.code o), unit.helpers, errors)
  | .markup => do
    let (markup, errors) ← Markup.generate o.markupSettings a.nodes
    .ok (.pair markup (a.context.functionSource o.runtimeModule), a.context.helpers, errors)

/-- Compiles a template. Faults are collected and what is at fault is left out if the options ask
for partial output; otherwise they end the compilation. -/
def compile (resolver : Resolver) (o : CompileOptions) (source : String) :
    Except CompileError CompileResult :=
  match o.emissionFault? with
  | some d => .error (.codegen [d])
  | none =>
    match Template.parse o.parseOptions source with
    | .error e => .error (.parse e)
    | .ok nodes =>
      let a := Template.annotate o.platform.capabilities nodes
      if !a.report.errors.isEmpty && !o.partialOutput then .error (.codegen a.report.errors)
      else
        match emitOutput resolver o a with
        | .error d => .error (.codegen [d])
        | .ok (output, helpers, errors) =>
          .ok ⟨output, helpers.toList, a.report.outlets, a.report.errors ++ errors⟩

/-- Compiles a template with the component table of the options. -/
def compileWithTable (o : CompileOptions) (source : String) : Except CompileError CompileResult :=
  compile (.ofTable o.components) o source

/-- Compiles templates one by one. -/
def compileMany (resolver : Resolver) (o : CompileOptions) (sources : List String) :
    List (Except CompileError CompileResult) :=
  sources.map (compile resolver o)

end UiTemplate
