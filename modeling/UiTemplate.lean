import UiTemplate.Text.Blank
import UiTemplate.Text.Upper
import UiTemplate.Text.Word
import UiTemplate.Json.Coercion
import UiTemplate.Json.Reader
import UiTemplate.Expression.Basic
import UiTemplate.Expression.Eval
import UiTemplate.Helper.Meaning
import UiTemplate.Template.Node
import UiTemplate.Template.Outline
import UiTemplate.Template.Parse
import UiTemplate.Template.Stored
import UiTemplate.Binding.Extract
import UiTemplate.Binding.Evaluate
import UiTemplate.Binding.Render
import UiTemplate.Backend.Calls
import UiTemplate.Options.Stored
import UiTemplate.Compile
import UiTemplate.Cache
import UiTemplate.Proofs.Binding.Key
import UiTemplate.Proofs.Binding.Parts
import UiTemplate.Proofs.Binding.Extraction
import UiTemplate.Proofs.Binding.Values
import UiTemplate.Proofs.Binding.Reading
import UiTemplate.Proofs.Template.Shape
import UiTemplate.Proofs.Backend.Ends
import UiTemplate.Proofs.Backend.Calls
import UiTemplate.Proofs.Backend.Markup
import UiTemplate.Proofs.Compile.Success
import UiTemplate.Proofs.Tolerance.Step
import UiTemplate.Proofs.Tolerance.Calls
import UiTemplate.Proofs.Tolerance.Markup
import UiTemplate.Proofs.Compile.Tolerance
import UiTemplate.Proofs.Outlet.Unique
import UiTemplate.Proofs.Backend.Fallback
import UiTemplate.Proofs.Siblings.Calls
import UiTemplate.Proofs.Siblings.Markup
import UiTemplate.Proofs.Compile.Siblings
import UiTemplate.Proofs.Template.Neutral
import UiTemplate.Proofs.Binding.Agreement
import UiTemplate.Proofs.Printing.Scanned
import UiTemplate.Proofs.Printing.Printed
import UiTemplate.Proofs.Printing.Tree
import UiTemplate.Proofs.Printing.Condense
import UiTemplate.Proofs.Printing.Plain
import UiTemplate.Proofs.Printing.Markup
import UiTemplate.Proofs.Printing.Static
import UiTemplate.Proofs.Json.Record
import UiTemplate.Proofs.Template.Contents
import UiTemplate.Proofs.Template.Stored
import UiTemplate.Proofs.Template.Chains
import UiTemplate.Proofs.Template.Cover
import UiTemplate.Proofs.Template.Located
import UiTemplate.Proofs.Binding.Instances
import UiTemplate.Proofs.Outlet.Iterated
import UiTemplate.Proofs.Expression.Names
import UiTemplate.Proofs.Rendering.Quotes
import UiTemplate.Proofs.Template.Sites
import UiTemplate.Proofs.Binding.Quoted
import UiTemplate.Proofs.Backend.Quoted
import UiTemplate.Proofs.Compile.Scopes
import UiTemplate.Proofs.Json.ReadBack
import UiTemplate.Proofs.Options.Stored
import UiTemplate.Proofs.Cache
import UiTemplate.Proofs.Binding.Leftover
import UiTemplate.Proofs.Compile.Retarget
import UiTemplate.Proofs.Rendering.Aliases
import UiTemplate.Proofs.Binding.Helpers
import UiTemplate.Proofs.Backend.Helpers
import UiTemplate.Proofs.Compile.Helpers
import UiTemplate.Proofs.Expression.Reads
import UiTemplate.Proofs.Expression.Literal
import UiTemplate.Proofs.Backend.Paths
import UiTemplate.Proofs.Compile.Names
import UiTemplate.Proofs.Compile.Hoisting
import UiTemplate.Proofs.Outlet.Collisions
import UiTemplate.Proofs.Binding.Keywise
import UiTemplate.Proofs.Script.Refusal
import UiTemplate.Proofs.Expression.PlainName
import UiTemplate.Proofs.Template.Joints
import UiTemplate.Proofs.Template.Written
import UiTemplate.Proofs.Compile.Producers
import UiTemplate.Proofs.Script.Words
import UiTemplate.Proofs.Printing.Placeholders
import UiTemplate.Proofs.Printing.Attributes
import UiTemplate.Proofs.Compile.Given
import UiTemplate.Proofs.Backend.References
import UiTemplate.Proofs.Backend.Elements
import UiTemplate.Proofs.Backend.Taken
import UiTemplate.Proofs.Backend.Placeholders
import UiTemplate.Proofs.Compile.Placeholders
import UiTemplate.Proofs.Template.LoopPattern
import UiTemplate.Proofs.Expression.Property
import UiTemplate.Proofs.Template.Attributes
import UiTemplate.Proofs.Backend.Presence
import UiTemplate.Proofs.Binding.Enumeration
import UiTemplate.Proofs.Outlet.Overlap
import UiTemplate.Proofs.Script.Tails
