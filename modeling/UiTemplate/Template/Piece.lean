import UiTemplate.Template.Fault
import UiTemplate.Template.Place

/-!
# The pieces of a template

A template is a run of pieces: tags, comments, interpolations and the texts between them. Pieces
know nothing of each other; that closing tags fit opening tags is a matter of the tree.

`pieces` gives the pieces from a place on, and the flaw at which reading ends if there is one.
-/

namespace UiTemplate

/-- An attribute as it is written: where its name starts and where its value does. -/
structure RawAttribute where
  name : String
  value : Option String
  start : Nat
  valueStart : Nat
  deriving DecidableEq, Repr

/-- A piece of a template with the byte at which it starts. An interpolation starts after its
opening braces, and a tag that is closed takes no children. -/
inductive Piece where
  | text (value : String) (start : Nat)
  | interpolation (source : String) (start : Nat)
  | comment (value : String) (start : Nat)
  | openTag (tag : String) (attributes : List RawAttribute) (closed : Bool) (start : Nat)
  | closeTag (tag : String) (start : Nat)
  deriving DecidableEq, Repr

namespace Piece

/-- The tags that never have children. -/
def voidTags : List String :=
  ["area", "base", "br", "col", "embed", "hr", "img", "input", "link", "meta", "source", "track",
    "wbr"]

/-- A character of a tag's name. -/
def isTagChar (c : Char) : Bool :=
  c.isAlphanum || c == '_' || c == '.' || c == ':' || c == '-'

/-- A character of an attribute's name. -/
def isNameChar (c : Char) : Bool :=
  !(Text.isBlank c || c == '"' || c == '\'' || c == '<' || c == '>' || c == '/' || c == '=')

/-- A character of a value without quotes. -/
def isValueChar (c : Char) : Bool :=
  !(Text.isBlank c || c == '"' || c == '\'' || c == '=' || c == '<' || c == '>' || c == '\x60')

/-- Whether a tag or a comment starts here. -/
def startsMarkup : List Char → Bool
  | '<' :: '!' :: '-' :: '-' :: _ => true
  | '<' :: '/' :: _ => true
  | '<' :: c :: _ => c.isAlpha
  | _ => false

/-- Whether anything but text starts here. -/
def startsPiece : List Char → Bool
  | '{' :: '{' :: _ => true
  | cs => startsMarkup cs

/-- The text up to the next piece, and the rest. -/
def spanText : List Char → List Char × List Char
  | [] => ([], [])
  | c :: cs =>
    if startsPiece (c :: cs) then ([], c :: cs)
    else
      let (before, after) := spanText cs
      (c :: before, after)

/-! ## Tags -/

/-- The value of an attribute after its equals sign. -/
def readValue (name : String) (start : Nat) (p : Place) : Except Flaw (RawAttribute × Place) :=
  let quote? := p.rest.head?.filter fun c => c == '"' || c == '\''
  match quote? with
  | some quote =>
    let body := p.skip 1
    match body.breakOn [quote] with
    | none => .error ⟨.unterminatedValue name, p.offset⟩
    | some (value, q) => .ok (⟨name, some (String.ofList value), start, body.offset⟩, q)
  | none =>
    let (value, q) := p.span isValueChar
    if value.isEmpty then .error ⟨.missingValue name, p.offset⟩
    else .ok (⟨name, some (String.ofList value), start, p.offset⟩, q)

/-- An attribute. Blanks may stand around the equals sign; without one the attribute has no
value. -/
def readAttribute (p : Place) : Except Flaw (RawAttribute × Place) :=
  let (name, q) := p.span isNameChar
  if name.isEmpty then .error ⟨.malformedAttribute, p.offset⟩
  else
    let r := q.skipBlanks
    if r.startsWith "=" then readValue (String.ofList name) p.offset (r.skip 1).skipBlanks
    else .ok (⟨String.ofList name, none, p.offset, q.offset⟩, q)

theorem length_readValue {name : String} {start : Nat} {p q : Place} {a : RawAttribute}
    (h : readValue name start p = .ok (a, q)) : q.rest.length ≤ p.rest.length := by
  simp only [readValue] at h
  split at h
  · split at h
    · cases h
    · rename_i hb
      have := Place.length_breakOn (by simp) hb
      have := Place.length_skip 1 p
      cases h
      omega
  · split at h
    · cases h
    · have := Place.length_span isValueChar p
      cases h
      omega

theorem length_readAttribute {p q : Place} {a : RawAttribute}
    (h : readAttribute p = .ok (a, q)) : q.rest.length < p.rest.length := by
  have hspan := Place.length_span isNameChar p
  simp only [readAttribute] at h
  split at h
  · cases h
  · rename_i hne
    have hpos : 0 < (p.span isNameChar).1.length := by
      rw [List.length_pos_iff]
      simpa using hne
    split at h
    · have h1 := length_readValue h
      have h2 := Place.length_skipBlanks ((p.span isNameChar).2.skipBlanks.skip 1)
      have h3 := Place.length_skip 1 (p.span isNameChar).2.skipBlanks
      have h4 := Place.length_skipBlanks (p.span isNameChar).2
      omega
    · cases h
      omega

/-- The attributes of a start tag up to its end, and whether the tag closes itself. -/
def readAttributes (tag : String) (start : Nat) (p : Place) :
    Except Flaw (List RawAttribute × Bool × Place) :=
  let q := p.skipBlanks
  if q.rest.isEmpty then .error ⟨.unterminatedStartTag tag, start⟩
  else if q.startsWith "/>" then .ok ([], true, q.skip 2)
  else if q.startsWith ">" then .ok ([], false, q.skip 1)
  else
    match _h : readAttribute q with
    | .error e => .error e
    | .ok (a, r) =>
      match readAttributes tag start r with
      | .error e => .error e
      | .ok (attributes, closed, s) => .ok (a :: attributes, closed, s)
termination_by p.rest.length
decreasing_by
  have h1 := length_readAttribute _h
  have h2 : q.rest.length ≤ p.rest.length := Place.length_skipBlanks p
  omega

/-- A start tag. The tags without children count as closed. -/
def readOpenTag (p : Place) : Except Flaw (Piece × Place) :=
  let (name, q) := (p.skip 1).span isTagChar
  let tag := String.ofList name
  match readAttributes tag p.offset q with
  | .error e => .error e
  | .ok (attributes, closed, r) =>
    .ok (.openTag tag attributes (closed || voidTags.contains tag) p.offset, r)

/-- A closing tag. -/
def readCloseTag (p : Place) : Except Flaw (Piece × Place) :=
  let (name, q) := (p.skip 2).span isTagChar
  let r := q.skipBlanks
  if (name.head?.map Char.isAlpha).getD false && r.startsWith ">" then
    .ok (.closeTag (String.ofList name) p.offset, r.skip 1)
  else .error ⟨.malformedClosingTag, p.offset⟩

/-! ## Pieces -/

/-- The piece at a place that is not the end. -/
def next (p : Place) : Except Flaw (Piece × Place) :=
  if p.startsWith "<!--" then
    match (p.skip 4).breakOn ['-', '-', '>'] with
    | none => .error ⟨.unterminatedComment, p.offset⟩
    | some (value, q) => .ok (.comment (String.ofList value) p.offset, q)
  else if p.startsWith "</" then readCloseTag p
  else if startsMarkup p.rest then readOpenTag p
  else if p.startsWith "\x7b\x7b" then
    let body := p.skip 2
    match body.breakOn ['}', '}'] with
    | none => .error ⟨.unterminatedInterpolation, p.offset⟩
    | some (source, q) => .ok (.interpolation (String.ofList source) body.offset, q)
  else
    let (value, rest) := spanText p.rest
    .ok (.text (String.ofList value) p.offset, ⟨p.offset + Text.byteLength value, rest⟩)

theorem length_readAttributes {tag : String} {start : Nat} {p q : Place}
    {attributes : List RawAttribute} {closed : Bool}
    (h : readAttributes tag start p = .ok (attributes, closed, q)) :
    q.rest.length ≤ p.rest.length := by
  induction hn : p.rest.length using Nat.strongRecOn generalizing p q attributes closed with
  | ind n ih =>
    have h1 := Place.length_skipBlanks p
    rw [readAttributes] at h
    split at h
    · cases h
    · split at h
      · have h2 := Place.length_skip 2 p.skipBlanks
        cases h
        omega
      · split at h
        · have h2 := Place.length_skip 1 p.skipBlanks
          cases h
          omega
        · split at h
          · cases h
          · rename_i r hr
            have h2 := length_readAttribute hr
            split at h
            · cases h
            · rename_i hs
              have h3 := ih r.rest.length (by omega) hs rfl
              cases h
              omega

theorem length_spanText (cs : List Char) :
    (spanText cs).1.length + (spanText cs).2.length = cs.length := by
  induction cs with
  | nil => rfl
  | cons c cs ih =>
    simp only [spanText]
    split
    · simp
    · simp only [List.length_cons]
      omega

theorem spanText_ne_nil {cs : List Char} (hne : cs ≠ []) (h : startsPiece cs = false) :
    0 < (spanText cs).1.length := by
  cases cs with
  | nil => exact absurd rfl hne
  | cons c cs => simp [spanText, h]

theorem startsPiece_eq_false {p : Place} (hm : startsMarkup p.rest = false)
    (hb : p.startsWith "\x7b\x7b" = false) : startsPiece p.rest = false := by
  unfold startsPiece
  split
  · rename_i h
    simp [Place.startsWith, h] at hb
  · exact hm

theorem length_next {p q : Place} {piece : Piece} (hne : p.rest ≠ [])
    (h : next p = .ok (piece, q)) : q.rest.length < p.rest.length := by
  have hpos := List.length_pos_iff.mpr hne
  simp only [next] at h
  split at h
  · split at h
    · cases h
    · rename_i hb
      have h1 := Place.length_breakOn (by simp) hb
      have h2 := Place.length_skip 4 p
      cases h
      omega
  · split at h
    · have h1 := Place.length_skip 2 p
      have h2 := Place.length_span isTagChar (p.skip 2)
      have h3 := Place.length_skipBlanks ((p.skip 2).span isTagChar).2
      have h4 := Place.length_skip 1 ((p.skip 2).span isTagChar).2.skipBlanks
      simp only [readCloseTag] at h
      split at h
      · cases h
        omega
      · cases h
    · split at h
      · have h1 := Place.length_skip 1 p
        have h2 := Place.length_span isTagChar (p.skip 1)
        simp only [readOpenTag] at h
        split at h
        · cases h
        · rename_i hr
          have h3 := length_readAttributes hr
          cases h
          omega
      · split at h
        · split at h
          · cases h
          · rename_i hb
            have h1 := Place.length_breakOn (by simp) hb
            have h2 := Place.length_skip 2 p
            cases h
            omega
        · rename_i hm hb
          have h1 := length_spanText p.rest
          have h2 := spanText_ne_nil hne
            (startsPiece_eq_false (by simpa using hm) (by simpa using hb))
          cases h
          simp only
          omega

end Piece

/-- The pieces from a place on, with the flaw at which reading ends if it does not reach the end. -/
def pieces (p : Place) : List Piece × Option Flaw :=
  if _hne : p.rest = [] then ([], none)
  else
    match _h : Piece.next p with
    | .error flaw => ([], some flaw)
    | .ok (piece, q) =>
      let (rest, flaw) := pieces q
      (piece :: rest, flaw)
termination_by p.rest.length
decreasing_by exact Piece.length_next _hne _h

end UiTemplate
