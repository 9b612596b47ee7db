import UiTemplate.Backend.Component
import UiTemplate.Diagnostic
import UiTemplate.Template.Parse

/-!
# Options

How a template is compiled.
-/

namespace UiTemplate

/-- How a template is compiled: the platform, the form of the output, what becomes of blanks, the
name of the component, the modules that helpers and node constructors are imported from, whether
static nodes are hoisted and faulty ones left out, and the table of components. -/
structure CompileOptions where
  platform : Platform := .web
  emissionMode : EmissionMode := .functionWrapped
  whitespace : Whitespace := .condense
  componentName : String := "Template"
  runtimeModule : String := "@dcloudio/uni-runtime"
  vnodeModule : String := "vue"
  hoistStatic : Bool := false
  partialOutput : Bool := false
  components : ComponentTable := .empty
  deriving DecidableEq, Repr

namespace CompileOptions

/-- How the template is read. -/
def parseOptions (o : CompileOptions) : ParseOptions :=
  { platform := o.platform, whitespace := o.whitespace }

/-- What is wrong with the form of the output: a family has only one. -/
def emissionFault? (o : CompileOptions) : Option Diagnostic :=
  if o.emissionMode = o.platform.family.emissionMode then none
  else some ⟨.emissionMode o.platform o.emissionMode, [], {}⟩

end CompileOptions

end UiTemplate
