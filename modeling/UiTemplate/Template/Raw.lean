import UiTemplate.Template.Piece

/-!
# Templates as they are written

The tree of elements, texts, interpolations and comments that the pieces of a template form, before
attributes have a meaning. `Raw.ofPieces` reports the first thing that is wrong; `Raw.condense`
leaves out the blanks that only lay the template out.
-/

namespace UiTemplate

/-- A node as it is written, with the byte at which it starts. -/
inductive Raw where
  | element (tag : String) (attributes : List RawAttribute) (selfClosing : Bool) (start : Nat)
      (children : List Raw)
  | text (value : String) (start : Nat)
  | interpolation (source : String) (start : Nat)
  | comment (value : String) (start : Nat)

/-- An element whose closing tag is still to come, with the siblings before it, the nearest
first. -/
structure OpenElement where
  tag : String
  attributes : List RawAttribute
  start : Nat
  before : List Raw

namespace Raw

/-- The tree of pieces, inside the elements that are open, the innermost first. `done` holds the
children read so far, the latest first; `flaw` is where the pieces end if not at the end. -/
def build (opened : List OpenElement) (done : List Raw) (flaw : Option Flaw) :
    List Piece → Except Flaw (List Raw)
  | [] =>
    match flaw, opened with
    | some f, _ => .error f
    | none, [] => .ok done.reverse
    | none, e :: _ => .error ⟨.unclosedElement e.tag, e.start⟩
  | .text value start :: rest => build opened (text value start :: done) flaw rest
  | .interpolation source start :: rest =>
    build opened (interpolation source start :: done) flaw rest
  | .comment value start :: rest => build opened (comment value start :: done) flaw rest
  | .openTag tag attributes closed start :: rest =>
    if closed then build opened (element tag attributes true start [] :: done) flaw rest
    else build (⟨tag, attributes, start, done⟩ :: opened) [] flaw rest
  | .closeTag tag start :: rest =>
    match opened with
    | [] => .error ⟨.unexpectedClosingTag tag, start⟩
    | e :: outer =>
      if e.tag = tag then
        build outer (element e.tag e.attributes false e.start done.reverse :: e.before) flaw rest
      else .error ⟨.mismatchedClosingTag e.tag tag, start⟩

/-- The tree that pieces form. -/
def ofPieces (ps : List Piece × Option Flaw) : Except Flaw (List Raw) :=
  build [] [] ps.2 ps.1

/-- The tree of a text. -/
def read (source : List Char) : Except Flaw (List Raw) :=
  ofPieces (pieces ⟨0, source⟩)

/-! ## Blanks -/

/-- Whether a node is an element. -/
def isElement : Raw → Bool
  | element .. => true
  | _ => false

/-- Whether a node is a comment. -/
def isComment : Raw → Bool
  | comment .. => true
  | _ => false

/-- A text with every run of blanks made one blank; `inRun` says whether a run goes on. -/
def collapse (inRun : Bool) : List Char → List Char
  | [] => []
  | c :: cs =>
    if Text.isBlank c then
      if inRun then collapse true cs else ' ' :: collapse true cs
    else c :: collapse false cs

/-- Whether a blank text between two neighbours only lays the template out: at an end, beside a
comment, or with a line break between two elements. -/
def isLayout (before after : Option Raw) (value : List Char) : Bool :=
  match before, after with
  | some a, some b =>
    a.isComment || b.isComment || (a.isElement && b.isElement && value.contains '\n')
  | _, _ => true

/-- A text between two neighbours without superfluous blanks; none if all of it is layout. -/
def condensedText (before after : Option Raw) (value : String) : Option String :=
  if Text.allBlank value.toList then
    if isLayout before after value.toList then none else some " "
  else some (String.ofList (collapse false value.toList))

mutual

/-- The node with superfluous blanks below it left out. -/
def condense : Raw → Raw
  | element tag attributes selfClosing start children =>
    element tag attributes selfClosing start (condenseAll none children)
  | text value start => text value start
  | interpolation source start => interpolation source start
  | comment value start => comment value start

/-- The siblings after `before` with superfluous blanks left out, also below them. -/
def condenseAll (before : Option Raw) : List Raw → List Raw
  | [] => []
  | text value start :: rest =>
    match condensedText before rest.head? value with
    | some v => text v start :: condenseAll (some (text value start)) rest
    | none => condenseAll (some (text value start)) rest
  | node :: rest => condense node :: condenseAll (some node) rest

end

end Raw

end UiTemplate
