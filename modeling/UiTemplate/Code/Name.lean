import UiTemplate.Decimal.Natural
import UiTemplate.Json.Quoted
import UiTemplate.Text.Upper

/-!
# Names in emitted code

How names that a template chooses freely are written in code: as keys of an object, as event
properties, as parts of an identifier, and as the variables that carry the position in a loop.
-/

namespace UiTemplate.Code

/-- A string literal. -/
def literal (s : String) : String :=
  Json.quoted s

/-- Two blanks a level. -/
def indent (level : Nat) : String :=
  String.ofList (List.replicate (2 * level) ' ')

/-- A letter, a mark or a dollar sign: a character that can start an identifier everywhere. -/
def isPlainStart (c : Char) : Bool :=
  c.isAlpha || c == '_' || c == '$'

/-- A character that can stand in an identifier everywhere. -/
def isPlain (c : Char) : Bool :=
  c.isAlphanum || c == '_' || c == '$'

/-- Whether a text is an identifier of plain characters. -/
def isPlainName : List Char → Bool
  | [] => false
  | c :: cs => isPlainStart c && cs.all isPlain

/-- The key of an object's field: bare if it is a plain identifier, a string literal otherwise. -/
def fieldKey (name : String) : String :=
  if isPlainName name.toList then name else literal name

/-- A text with every character that is not plain replaced by an underscore. -/
def identifier (name : String) : String :=
  String.ofList (name.toList.map fun c => if isPlain c then c else '_')

/-- The pieces of a text between the occurrences of a character. -/
def splitAt (separator : Char) : List Char → List (List Char)
  | [] => [[]]
  | c :: cs =>
    match splitAt separator cs with
    | [] => [[c]]
    | piece :: pieces => if c == separator then [] :: piece :: pieces else (c :: piece) :: pieces

/-- A text with its first character in upper case. -/
def capitalize : List Char → List Char
  | [] => []
  | c :: cs => Text.upper c ++ cs

/-- The property under which the handler of an event is passed: `on`, then the parts of the event's
name between dashes, each capitalized. -/
def handlerName (event : String) : String :=
  "on" ++ String.ofList ((splitAt '-' event.toList).flatMap capitalize)

/-- The variable that holds the position in a loop with `depth` loops around it. -/
def pathVariable (depth : Nat) : String :=
  "i" ++ Decimal.natText depth

/-- The expression for the positions in the given loops, joined by dashes; none outside loops. -/
def loopPath (loops : List Nat) : Option String :=
  if loops.isEmpty then none else some (" + \"-\" + ".intercalate (loops.map pathVariable))

end UiTemplate.Code
