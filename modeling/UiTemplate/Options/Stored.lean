import UiTemplate.Json.Fields
import UiTemplate.Json.Printer
import UiTemplate.Json.Reader
import UiTemplate.Options.Basic

/-!
# Stored options

Options as JSON: `CompileOptions.text` and `CompileOptions.ofText?`. Every field may be missing; a
field of a wrong type, or one that is given twice, is rejected.
-/

namespace UiTemplate

open Json

namespace EmissionMode

/-- The name of a mode. -/
def name : EmissionMode → String
  | functionWrapped => "function-wrapped"
  | standalonePair => "standalone-pair"

/-- The mode of a name. -/
def ofName? (name : String) : Option EmissionMode :=
  [functionWrapped, standalonePair].find? fun m => m.name == name

end EmissionMode

namespace Whitespace

/-- The name of a choice. -/
def name : Whitespace → String
  | condense => "condense"
  | preserve => "preserve"

/-- The choice of a name. -/
def ofName? (name : String) : Option Whitespace :=
  [condense, preserve].find? fun w => w.name == name

end Whitespace

namespace ComponentEntry

/-- The stored form. -/
def toJson : ComponentEntry → Json
  | resolved c =>
    .obj
      [("kind", .str "resolved"), ("identifier", .str c.identifier),
        ("sourceModule", .str c.sourceModule), ("namespace", ofOption .str c.space)]
  | file path => .obj [("kind", .str "local"), ("path", .str path)]

/-- The entry that is stored. -/
def ofJson? (v : Json) : Option ComponentEntry := do
  let (kind, body) ← tagged? "kind" v
  if kind = "resolved" then
    let f ← fields? ["identifier", "sourceModule", "namespace"] body
    let identifier ← f.required "identifier" str?
    let sourceModule ← f.required "sourceModule" str?
    let space ← f.withDefault "namespace" (Fields.orNull str?) none
    some (resolved { identifier, sourceModule, space })
  else if kind = "local" then
    let f ← fields? ["path"] body
    let path ← f.required "path" str?
    some (file path)
  else none

end ComponentEntry

namespace ComponentTable

/-- The stored form. -/
def toJson (table : ComponentTable) : Json :=
  .obj (table.entries.map fun (tag, entry) => (tag, entry.toJson))

/-- The table that is stored. -/
def ofJson? : Json → Option ComponentTable
  | .obj entries => do
    let decoded ← entries.mapM fun (tag, v) => do
      let entry ← ComponentEntry.ofJson? v
      some (tag, entry)
    some (ofList decoded)
  | _ => none

end ComponentTable

namespace CompileOptions

/-- The variant of a name that is stored. -/
def variantNamed? {α : Type} (ofName? : String → Option α) (v : Json) : Option α := do
  let name ← variant? Json.isNull v
  ofName? name

/-- The stored form, its fields in the order in which they are declared. -/
def toJson (o : CompileOptions) : Json :=
  .obj
    [("platform", .str o.platform.name), ("emissionMode", .str o.emissionMode.name),
      ("whitespace", .str o.whitespace.name), ("componentName", .str o.componentName),
      ("runtimeModule", .str o.runtimeModule), ("vnodeModule", .str o.vnodeModule),
      ("hoistStatic", .bool o.hoistStatic), ("partialOutput", .bool o.partialOutput),
      ("components", o.components.toJson)]

/-- The options that are stored. -/
def ofJson? (v : Json) : Option CompileOptions := do
  let f ← fields?
    ["platform", "emissionMode", "whitespace", "componentName", "runtimeModule", "vnodeModule",
      "hoistStatic", "partialOutput", "components"] v
  let standard : CompileOptions := {}
  let platform ← f.withDefault "platform" (variantNamed? Platform.ofName?) standard.platform
  let emissionMode ←
    f.withDefault "emissionMode" (variantNamed? EmissionMode.ofName?) standard.emissionMode
  let whitespace ←
    f.withDefault "whitespace" (variantNamed? Whitespace.ofName?) standard.whitespace
  let componentName ← f.withDefault "componentName" str? standard.componentName
  let runtimeModule ← f.withDefault "runtimeModule" str? standard.runtimeModule
  let vnodeModule ← f.withDefault "vnodeModule" str? standard.vnodeModule
  let hoistStatic ← f.withDefault "hoistStatic" bool? standard.hoistStatic
  let partialOutput ← f.withDefault "partialOutput" bool? standard.partialOutput
  let components ← f.withDefault "components" ComponentTable.ofJson? standard.components
  some
    { platform, emissionMode, whitespace, componentName, runtimeModule, vnodeModule, hoistStatic,
      partialOutput, components }

/-- The stored text. -/
def text (o : CompileOptions) : String :=
  o.toJson.compact

/-- The options of a stored text. -/
def ofText? (text : String) : Option CompileOptions := do
  let v ← read? text
  ofJson? v

end CompileOptions

end UiTemplate
