import UiTemplate.Script.Escape
import UiTemplate.Script.Token
import UiTemplate.Text.Word

/-!
# Lexing scripts

One token at a time is taken off a text. Where the grammar decides what a character means, it asks
again: a slash may begin a regular expression (`scanRegex`), and a closing brace may resume a
template literal (`scanQuasi`).

Every scanner returns what it read, the number of bytes it took and the text that is left.
-/

namespace UiTemplate.Script

open Text

/-! ## Blanks and comments -/

/-- White space inside a line: the space separators, the byte order mark, and the zero-width and
next-line controls. -/
def isSpace (c : Char) : Bool :=
  let n := c.toNat
  n == 0x20 || n == 0x09 || n == 0x0B || n == 0x0C || n == 0x85 || n == 0xA0 || n == 0x1680 ||
    (0x2000 ≤ n && n ≤ 0x200B) || n == 0x202F || n == 0x205F || n == 0x3000 || n == 0xFEFF

/-- Where the skipping of blanks stands. -/
inductive Between where
  | tokens
  | lineComment
  | blockComment

/-- Skips white space and comments. The result has the position and text of the next token, and
whether a line ended on the way; a comment that is not closed has none. -/
def skip : Between → Bool → Nat → List Char → Option (Bool × Nat × List Char)
  | .tokens, line, pos, '/' :: '/' :: cs => skip .lineComment line (pos + 2) cs
  | .tokens, line, pos, '/' :: '*' :: cs => skip .blockComment line (pos + 2) cs
  | .tokens, line, pos, c :: cs =>
    if isSpace c then skip .tokens line (pos + c.utf8Size) cs
    else if isLineEnd c then skip .tokens true (pos + c.utf8Size) cs
    else some (line, pos, c :: cs)
  | .lineComment, line, pos, c :: cs =>
    if isLineEnd c then skip .tokens true (pos + c.utf8Size) cs
    else skip .lineComment line (pos + c.utf8Size) cs
  | .blockComment, line, pos, '*' :: '/' :: cs => skip .tokens line (pos + 2) cs
  | .blockComment, line, pos, c :: cs =>
    skip .blockComment (line || isLineEnd c) (pos + c.utf8Size) cs
  | .blockComment, _, _, [] => none
  | _, line, pos, [] => some (line, pos, [])

/-! ## Words -/

/-- A word at the start of a text. -/
structure Word where
  name : List Char
  width : Nat
  escaped : Bool
  rest : List Char

/-- Puts a character of the given width before a word. -/
def Word.cons (c : Char) (width : Nat) (escaped : Bool) (w : Word) : Word :=
  { w with name := c :: w.name, width := width + w.width, escaped := escaped || w.escaped }

/-- The longest word at the start of a text, which may be empty; `none` at an invalid escape.
`first` says that no character of the word has been read yet. -/
def scanWord (first : Bool) : Nat → List Char → Option Word
  | 0, _ => none
  | fuel + 1, cs =>
    let allowed (c : Char) : Bool := if first then isIdentStart c else isIdentPart c
    match cs with
    | '\\' :: 'u' :: r => do
      let (code, width, rest) ← codeEscape? r
      if isSurrogate code || !allowed (Char.ofNat code) then none
      else (scanWord false fuel rest).map (Word.cons (Char.ofNat code) (width + 2) true)
    | '\\' :: _ => none
    | c :: r =>
      if allowed c then (scanWord false fuel r).map (Word.cons c c.utf8Size false)
      else some ⟨[], 0, false, cs⟩
    | [] => some ⟨[], 0, false, []⟩

/-! ## Numbers -/

/-- The digits of a run such as `1_000`: a separator stands between two digits only. -/
def separated : List Char → Option (List Char)
  | [] => some []
  | '_' :: _ => none
  | [c] => some [c]
  | c :: '_' :: rest => if rest.isEmpty then none else (separated rest).map (c :: ·)
  | c :: rest => (separated rest).map (c :: ·)

/-- The run of digits and separators at the start of a text: the digits, the width of the run and
the text after it. -/
def digitRun (isDigit : Char → Bool) (cs : List Char) : Option (List Char × Nat × List Char) :=
  let run := cs.takeWhile fun c => isDigit c || c == '_'
  (separated run).map (·, run.length, cs.drop run.length)

/-- What a digit run before the text `cs` makes with an optional suffix `n`. -/
def withSuffix (token : Token) (width : Nat) : List Char → Token × Nat × List Char
  | 'n' :: rest => (.bigint, width + 1, rest)
  | rest => (token, width, rest)

/-- How many digits surely fit in 64 bits. -/
def wordDigits (base : Nat) : Nat :=
  if base == 16 then 16 else if base == 8 then 21 else 64

/-- The double of an integer by its digits, which take `width` characters with the separators among
them. If these are more than the digits that surely fit in 64 bits, the value is rounded after each
digit. -/
def basedValue (base width : Nat) (digits : List Nat) : Float :=
  if width ≤ wordDigits base then Float.ofNat (Decimal.ofDigits base digits)
  else digits.foldl (fun x d => x * Float.ofNat base + Float.ofNat d) 0

/-- An integer with a base mark such as `0x`, from the text after the mark. -/
def basedNumber (base : Nat) (cs : List Char) : Option (Token × Nat × List Char) := do
  let isDigit (c : Char) : Bool := (hexDigit? c).any (· < base)
  let (digits, width, rest) ← digitRun isDigit cs
  if digits.isEmpty then none
  else
    let value := basedValue base width (digits.filterMap hexDigit?)
    some (withSuffix (.number value) (width + 2) rest)

/-- The exponent of a decimal at the start of a text; it is zero and has no width if there is
none. -/
def exponentPart : List Char → Option (Int × Nat × List Char)
  | c :: cs =>
    if c == 'e' || c == 'E' then do
      let (negative, signWidth, cs) := match cs with
        | '-' :: r => (true, 1, r)
        | '+' :: r => (false, 1, r)
        | r => (false, 0, r)
      let (digits, width, rest) ← digitRun Char.isDigit cs
      if digits.isEmpty then none
      else
        let n : Int := Decimal.ofDigits 10 (digits.filterMap Decimal.digit?)
        some (if negative then -n else n, 1 + signWidth + width, rest)
    else some (0, 0, c :: cs)
  | [] => some (0, 0, [])

/-- The double with the given digits before and after its point. -/
def decimalValue (whole part : List Char) (e : Int) : Float :=
  let coefficient := Decimal.ofDigits 10 ((whole ++ part).filterMap Decimal.digit?)
  Decimal.Scientific.toFloat ⟨coefficient, e - part.length⟩

/-- A decimal after the digits before its point, which take `width` bytes. -/
def decimalTail (whole : List Char) (width : Nat) (cs : List Char) :
    Option (Token × Nat × List Char) := do
  let (part, partWidth, rest) ← match cs with
    | '.' :: r => do
      let (digits, w, rest) ← digitRun Char.isDigit r
      some (digits, w + 1, rest)
    | r => some ([], 0, r)
  let (e, expWidth, rest) ← exponentPart rest
  let token : Token := .number (decimalValue whole part e)
  some (if partWidth == 0 && expWidth == 0 then withSuffix token width rest
    else (token, width + partWidth + expWidth, rest))

/-- An integer with a zero before its first digit: octal if all its digits are, decimal otherwise,
and then it may have a fraction. An exponent right after its digits is marked by a small letter. -/
def zeroLed (cs : List Char) : Option (Token × Nat × List Char) :=
  let run := cs.takeWhile Char.isDigit
  let rest := cs.drop run.length
  if rest.head? == some 'n' || rest.head? == some '_' then none
  else if run.all (· ≤ '7') then
    let value := basedValue 8 (run.length - 1) ((run.drop 1).filterMap Decimal.digit?)
    some (.number value, run.length, rest)
  else if rest.head? == some 'E' then none
  else decimalTail run run.length rest

/-- A number at the start of a text, which begins with a digit or with a point and a digit. Neither a
digit nor a word follows it at once. -/
def scanNumber (cs : List Char) : Option (Token × Nat × List Char) := do
  let (token, width, rest) ← match cs with
    | '0' :: c :: r =>
      if c == 'x' || c == 'X' then basedNumber 16 r
      else if c == 'o' || c == 'O' then basedNumber 8 r
      else if c == 'b' || c == 'B' then basedNumber 2 r
      else if c == '_' then none
      else if c.isDigit then zeroLed cs
      else decimalTail ['0'] 1 (c :: r)
    | '.' :: _ => decimalTail [] 0 cs
    | _ => do
      let (whole, width, rest) ← digitRun Char.isDigit cs
      decimalTail whole width rest
  if rest.head?.any fun c => c.isDigit || isIdentStart c || c == '\\' then none
  else some (token, width, rest)

/-! ## Strings, template literals and regular expressions -/

/-- The units of a string up to its closing quote. A line may not end inside it. -/
def scanString (quote : Char) : Nat → List Char → Option (List TextUnit × Nat × List Char)
  | 0, _ => none
  | _ + 1, [] => none
  | fuel + 1, c :: cs =>
    if c == quote then some ([], 1, cs)
    else if c == '\n' || c == '\r' then none
    else if c == '\\' then do
      let (units, width, rest) ← escape? true cs
      let (more, w, rest) ← scanString quote fuel rest
      some (units ++ more, 1 + width + w, rest)
    else do
      let (more, w, rest) ← scanString quote fuel cs
      some (.char c :: more, c.utf8Size + w, rest)

/-- A chunk of a template literal. -/
structure Quasi where
  units : Option (List TextUnit)
  last : Bool
  width : Nat
  rest : List Char

/-- Puts units of the given width before a chunk. -/
def Quasi.cons (units : Option (List TextUnit)) (width : Nat) (q : Quasi) : Quasi :=
  { q with
    units := do
      let a ← units
      let b ← q.units
      some (a ++ b)
    width := width + q.width }

/-- The chunk of a template literal at the start of a text, up to its closing mark or the next
placeholder. A line end is a line feed, however it is written. -/
def scanQuasi : Nat → List Char → Option Quasi
  | 0, _ => none
  | fuel + 1, cs =>
    match cs with
    | [] => none
    | '\x60' :: rest => some ⟨some [], true, 1, rest⟩
    | '$' :: '\x7b' :: rest => some ⟨some [], false, 2, rest⟩
    | '\r' :: '\n' :: rest => (scanQuasi fuel rest).map (Quasi.cons (some [.char '\n']) 2)
    | '\r' :: rest => (scanQuasi fuel rest).map (Quasi.cons (some [.char '\n']) 1)
    | '\\' :: rest =>
      match escape? false rest with
      | some (units, width, rest) =>
        (scanQuasi fuel rest).map (Quasi.cons (some units) (width + 1))
      | none =>
        match rest with
        | c :: rest => (scanQuasi fuel rest).map (Quasi.cons none (1 + c.utf8Size))
        | [] => none
    | c :: rest => (scanQuasi fuel rest).map (Quasi.cons (some [.char c]) c.utf8Size)

/-- The token of a chunk. -/
def Quasi.token (q : Quasi) : Token :=
  .quasi (q.units.map fun units => String.ofList (textOfUnits units)) q.last

/-- The body of a regular expression up to its closing slash: its width and the text after it.
Inside a class a slash stands for itself. -/
def regexBody (inClass : Bool) : Nat → List Char → Option (Nat × List Char)
  | 0, _ => none
  | fuel + 1, cs =>
    match cs with
    | [] => none
    | '/' :: rest =>
      if inClass then (regexBody true fuel rest).map fun (w, r) => (w + 1, r)
      else some (1, rest)
    | '\\' :: c :: rest =>
      if isLineEnd c then none
      else (regexBody inClass fuel rest).map fun (w, r) => (w + 1 + c.utf8Size, r)
    | c :: rest =>
      if isLineEnd c then none
      else
        let inside := if c == '[' then true else if c == ']' then false else inClass
        (regexBody inside fuel rest).map fun (w, r) => (w + c.utf8Size, r)

/-- The flags of regular expressions. -/
def regexFlags : List Char :=
  ['d', 'g', 'i', 'm', 's', 'u', 'v', 'y']

/-- No flag is repeated, and each is one of the flags there are. -/
def distinctFlags : List Char → Bool
  | [] => true
  | c :: cs => regexFlags.contains c && !cs.contains c && distinctFlags cs

/-- The flags are distinct, and `u` and `v` do not stand together. -/
def validFlags (flags : List Char) : Bool :=
  distinctFlags flags && !(flags.contains 'u' && flags.contains 'v')

/-- A regular expression from the text after its opening slash: its width and the text after it. -/
def scanRegex (cs : List Char) : Option (Nat × List Char) := do
  let (width, rest) ← regexBody false (cs.length + 1) cs
  let flags := rest.takeWhile isIdentPart
  if validFlags flags then some (width + flags.length, rest.drop flags.length) else none

/-! ## Tokens -/

/-- The punctuator at the start of a text. A question mark before `.5` stands alone. -/
def scanPunct (cs : List Char) : Option (Token × Nat × List Char) :=
  match cs with
  | '?' :: '.' :: c :: rest =>
    if c.isDigit then some (.punct .question, 1, '.' :: c :: rest)
    else some (.punct .questionDot, 2, c :: rest)
  | _ =>
    (Punct.spellings.find? fun p => p.1.isPrefixOf cs).map fun p =>
      (.punct p.2, p.1.length, cs.drop p.1.length)

/-- The token at the start of a text that begins with neither a blank nor a comment. -/
def scanToken (cs : List Char) : Option (Token × Nat × List Char) :=
  match cs with
  | [] => some (.eof, 0, [])
  | c :: rest =>
    if c == '"' || c == '\'' then do
      let (units, width, rest) ← scanString c (rest.length + 1) rest
      some (.str (String.ofList (textOfUnits units)), width + 1, rest)
    else if c == '\x60' then do
      let q ← scanQuasi (rest.length + 1) rest
      some (q.token, q.width + 1, q.rest)
    else if c.isDigit || (c == '.' && rest.head?.any Char.isDigit) then scanNumber cs
    else if c == '#' then do
      let w ← scanWord true (rest.length + 1) rest
      if w.name.isEmpty then none
      else some (.privateName (String.ofList w.name), w.width + 1, w.rest)
    else if c == '\\' || isIdentStart c then do
      let w ← scanWord true (cs.length + 1) cs
      some (.word (String.ofList w.name) w.escaped, w.width, w.rest)
    else scanPunct cs

/-- The next token of a text that begins at byte `pos`, and the text after the token. -/
def next (pos : Nat) (cs : List Char) : Lexeme × List Char :=
  match skip .tokens false pos cs with
  | none => (⟨.invalid, pos, pos, false⟩, [])
  | some (line, start, cs) =>
    match scanToken cs with
    | none => (⟨.invalid, start, start, line⟩, [])
    | some (token, width, rest) => (⟨token, start, start + width, line⟩, rest)

end UiTemplate.Script
