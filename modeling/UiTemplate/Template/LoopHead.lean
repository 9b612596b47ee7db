import UiTemplate.Template.Place
import UiTemplate.Text.Word

/-!
# Loop heads

The value of a loop directive: a name, or one or two names in parentheses, then `in` or `of`, then
the text of what is iterated. `LoopHead.read?` reads it from the left to the right;
`LoopHead.pattern` is the regular expression for it, with a matcher that tries one way after the
other.
-/

namespace UiTemplate

/-- A loop head: the names of an item and of its index, and where the text of the source starts. -/
structure LoopHead where
  item : String
  index : Option String
  source : String
  sourceStart : Nat
  deriving DecidableEq, Repr

namespace LoopHead

/-- A character that can start the name of an item or an index. -/
def isNameStart (c : Char) : Bool :=
  c.isAlpha || c == '_' || c == '$'

/-- A character of such a name. -/
def isNamePart (c : Char) : Bool :=
  Text.isWord c || c == '$'

/-- A name. -/
def name? (p : Place) : Option (String × Place) :=
  if (p.rest.head?.map isNameStart).getD false then
    let (name, q) := p.span isNamePart
    some (String.ofList name, q)
  else none

/-- The names in parentheses, from the first one on. -/
def names? (p : Place) : Option (String × Option String × Place) := do
  let (item, p) ← name? p.skipBlanks
  let p := p.skipBlanks
  if p.startsWith "," then
    let (index, p) ← name? (p.skip 1).skipBlanks
    let p := p.skipBlanks
    if p.startsWith ")" then some (item, some index, p.skip 1) else none
  else if p.startsWith ")" then some (item, none, p.skip 1)
  else none

/-- At least one blank, and the place after all of them. -/
def blanks? (p : Place) : Option Place :=
  let q := p.skipBlanks
  if p.offset < q.offset then some q else none

/-- The place after the word between the names and the source. -/
def keyword? (p : Place) : Option Place :=
  if p.startsWith "in" || p.startsWith "of" then some (p.skip 2) else none

/-- The last place from which a character other than a line feed can be read. -/
def lastInLine? (p : Place) : List Char → Option Place
  | [] => none
  | c :: cs =>
    match lastInLine? (p.skip 1) cs with
    | some q => some q
    | none => if c == '\n' then none else some p

/-- The text of the source from the blanks before it on. It holds no line feed between its ends.
Where only blanks are left, the last of them that is not a line feed stands for it, unless it is
the first one. -/
def source? (p : Place) : Option (String × Nat) := do
  let q ← blanks? p
  if q.rest.isEmpty then
    let p := p.skip 1
    let r ← lastInLine? p p.rest
    some (String.ofList (r.rest.take 1), r.offset)
  else
    let source := Text.trimRight q.rest
    if source.contains '\n' then none else some (String.ofList source, q.offset)

/-- Reads a loop head whose value starts at byte `start`. -/
def read? (value : String) (start : Nat) : Option LoopHead := do
  let p := Place.skipBlanks ⟨start, value.toList⟩
  let (item, index, p) ←
    if p.startsWith "(" then names? (p.skip 1)
    else (name? p).map fun (item, p) => (item, none, p)
  let p ← blanks? p
  let p ← keyword? p
  let (source, sourceStart) ← source? p
  some ⟨item, index, source, sourceStart⟩

end LoopHead

/-! ## Patterns -/

/-- Captured texts under their numbers, each with the byte at which it starts. -/
abbrev Captures := List (Nat × String × Nat)

/-- A regular expression for the front of a text. Of several ways to match, the first one counts. -/
inductive Pattern where
  /-- A character. -/
  | one (keep : Char → Bool)
  /-- As many characters as possible. -/
  | many (keep : Char → Bool)
  /-- As few characters as possible. -/
  | few (keep : Char → Bool)
  /-- A text that is captured under a number. -/
  | capture (n : Nat) (inner : Pattern)
  /-- One after the other. -/
  | both (first second : Pattern)
  /-- The first, or the second where the first one leads nowhere. -/
  | either (first second : Pattern)
  | nothing
  | atEnd

namespace Pattern

instance : Append Pattern := ⟨both⟩

/-- Takes as many characters off the front as what follows allows. -/
def most (keep : Char → Bool) (next : Place → Option Captures) (p : Place) :
    List Char → Option Captures
  | [] => next p
  | c :: cs =>
    if keep c then (most keep next (p.skip 1) cs).or (next p) else next p

/-- Takes as few characters off the front as what follows allows. -/
def least (keep : Char → Bool) (next : Place → Option Captures) (p : Place) :
    List Char → Option Captures
  | [] => next p
  | c :: cs =>
    (next p).or (if keep c then least keep next (p.skip 1) cs else none)

/-- Matches a pattern from a place on, given what follows it. -/
def run : Pattern → Place → Captures → (Place → Captures → Option Captures) → Option Captures
  | one keep, p, caps, next =>
    if (p.rest.head?.map keep).getD false then next (p.skip 1) caps else none
  | many keep, p, caps, next => most keep (next · caps) p p.rest
  | few keep, p, caps, next => least keep (next · caps) p p.rest
  | capture n inner, p, caps, next =>
    inner.run p caps fun q caps =>
      let taken := p.rest.take (p.rest.length - q.rest.length)
      next q ((n, String.ofList taken, p.offset) :: caps)
  | both first second, p, caps, next => first.run p caps fun q caps => second.run q caps next
  | either first second, p, caps, next =>
    (first.run p caps next).or (second.run p caps next)
  | nothing, p, caps, next => next p caps
  | atEnd, p, caps, next => if p.rest.isEmpty then next p caps else none

/-- What a pattern captures. -/
def captures? (pattern : Pattern) (p : Place) : Option Captures :=
  pattern.run p [] fun _ caps => some caps

/-- A mark. -/
def mark (c : Char) : Pattern :=
  one (· == c)

end Pattern

namespace LoopHead

open Pattern

/-- A name under a number. -/
def name (n : Nat) : Pattern :=
  capture n (one isNameStart ++ many isNamePart)

/-- Blanks, if any. -/
def blanks : Pattern :=
  many Text.isBlank

/-- At least one blank. -/
def gap : Pattern :=
  one Text.isBlank ++ blanks

/-- One or two names in parentheses. -/
def listed : Pattern :=
  mark '(' ++ blanks ++ name 1 ++ blanks ++
    either (mark ',' ++ blanks ++ name 2 ++ blanks) nothing ++ mark ')'

/-- The word between the names and the source. -/
def keyword : Pattern :=
  either (mark 'i' ++ mark 'n') (mark 'o' ++ mark 'f')

/-- The text of the source up to the blanks at the end. -/
def iterated : Pattern :=
  capture 4 (one (· != '\n') ++ few (· != '\n')) ++ blanks ++ atEnd

/-- The pattern of loop heads. The item is captured under 1 or 3, the index under 2. -/
def pattern : Pattern :=
  blanks ++ either listed (name 3) ++ gap ++ keyword ++ gap ++ iterated

/-- The loop head of what is captured. -/
def ofCaptures? (caps : Captures) : Option LoopHead := do
  let item := (caps.lookup 1).or (caps.lookup 3)
  let (source, sourceStart) ← caps.lookup 4
  some ⟨(item.map Prod.fst).getD "", (caps.lookup 2).map Prod.fst, source, sourceStart⟩

end LoopHead

end UiTemplate
