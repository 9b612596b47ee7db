import UiTemplate.Backend.Component
import UiTemplate.Helper.Abi
import UiTemplate.Options.Basic

/-!
# Render units

What is emitted for the platforms that construct nodes by calls: the code of the root node and all
that it refers to. `RenderUnit.code` writes it as a module.
-/

namespace UiTemplate

/-- The code of the root node, the declarations of hoisted nodes, the components and the helpers it
uses, and the constructors it imports, which are in ascending order. -/
structure RenderUnit where
  root : String := ""
  hoisted : List String := []
  components : List ComponentRef := []
  imports : List String := []
  helpers : HelperSet := {}

/-- Adds a name to names in ascending order. -/
def insertName (name : String) : List String → List String
  | [] => [name]
  | n :: rest =>
    if name < n then name :: n :: rest
    else if name = n then n :: rest
    else n :: insertName name rest

namespace RenderUnit

/-- The lines that import constructors, helpers and components. Constructors are known to typed code
without an import. -/
def importLines (u : RenderUnit) (o : CompileOptions) : List String :=
  let constructors :=
    if !o.platform.isTyped && !u.imports.isEmpty then
      ["import \x7b " ++ ", ".intercalate u.imports ++ " \x7d from \"" ++ o.vnodeModule ++ "\";"]
    else []
  constructors ++ (Helper.importStatement u.helpers.toList o.runtimeModule).toList ++
    u.components.filterMap fun c => c.importLine o.platform

/-- The first line of the render function. -/
def signature (o : CompileOptions) : String :=
  if o.platform.isTyped then
    "@Suppress(\"UNUSED_PARAMETER\") function " ++ o.componentName ++ "Render(_ctx: " ++
      o.componentName ++ "): VNode | null \x7b\n"
  else "export function render(_ctx) \x7b\n"

/-- Lines, each ended, and an empty line after them if there are any. -/
def paragraph (lines : List String) : String :=
  if lines.isEmpty then "" else String.join (lines.map (· ++ "\n")) ++ "\n"

/-- The module of the unit. -/
def code (u : RenderUnit) (o : CompileOptions) : String :=
  paragraph (u.importLines o) ++ paragraph u.hoisted ++ signature o ++
    paragraph (u.components.map fun c => "  " ++ c.declaration o.platform) ++ "  return " ++
    u.root ++ "\n\x7d\n"

end RenderUnit

end UiTemplate
