/-!
# Tokens of a script

The lexical units of the expression language: words, literals, the chunks of a template literal and
punctuators. Keywords are words; the grammar decides which words are reserved where.
-/

namespace UiTemplate.Script

/-- A punctuator. Compound assignments are told from the plain one only, since no reading of a
script depends on which of them is written. -/
inductive Punct where
  | leftBrace
  | rightBrace
  | leftParen
  | rightParen
  | leftBracket
  | rightBracket
  | dot
  | ellipsis
  | semicolon
  | comma
  | colon
  | question
  | questionDot
  | arrow
  | atSign
  | less
  | greater
  | lessEq
  | greaterEq
  | equal
  | notEqual
  | strictEqual
  | strictNotEqual
  | plus
  | minus
  | star
  | slash
  | percent
  | power
  | increment
  | decrement
  | shiftLeft
  | shiftRight
  | shiftRightZero
  | bitAnd
  | bitOr
  | bitXor
  | bang
  | tilde
  | andAnd
  | orOr
  | coalesce
  | assign
  | assignWith
  | slashAssign
  deriving DecidableEq, Repr

/-- The spellings of the punctuators, a longer one before each of its beginnings. -/
def Punct.spellings : List (List Char × Punct) :=
  [ (['>', '>', '>', '='], assignWith),
    (['.', '.', '.'], ellipsis),
    (['=', '=', '='], strictEqual),
    (['!', '=', '='], strictNotEqual),
    (['*', '*', '='], assignWith),
    (['<', '<', '='], assignWith),
    (['>', '>', '='], assignWith),
    (['>', '>', '>'], shiftRightZero),
    (['&', '&', '='], assignWith),
    (['|', '|', '='], assignWith),
    (['?', '?', '='], assignWith),
    (['=', '>'], arrow),
    (['=', '='], equal),
    (['!', '='], notEqual),
    (['<', '='], lessEq),
    (['>', '='], greaterEq),
    (['*', '*'], power),
    (['+', '+'], increment),
    (['-', '-'], decrement),
    (['<', '<'], shiftLeft),
    (['>', '>'], shiftRight),
    (['&', '&'], andAnd),
    (['|', '|'], orOr),
    (['?', '?'], coalesce),
    (['?', '.'], questionDot),
    (['+', '='], assignWith),
    (['-', '='], assignWith),
    (['*', '='], assignWith),
    (['/', '='], slashAssign),
    (['%', '='], assignWith),
    (['&', '='], assignWith),
    (['|', '='], assignWith),
    (['^', '='], assignWith),
    (['\x7b'], leftBrace),
    (['\x7d'], rightBrace),
    (['('], leftParen),
    ([')'], rightParen),
    (['['], leftBracket),
    ([']'], rightBracket),
    (['.'], dot),
    ([';'], semicolon),
    ([','], comma),
    ([':'], colon),
    (['?'], question),
    (['@'], atSign),
    (['<'], less),
    (['>'], greater),
    (['+'], plus),
    (['-'], minus),
    (['*'], star),
    (['/'], slash),
    (['%'], percent),
    (['&'], bitAnd),
    (['|'], bitOr),
    (['^'], bitXor),
    (['!'], bang),
    (['~'], tilde),
    (['='], assign) ]

/-- A lexical unit. -/
inductive Token where
  /-- An identifier or keyword by its decoded name, and whether an escape stands in it. -/
  | word (name : String) (escaped : Bool)
  /-- A private name such as `#x`, without its mark. -/
  | privateName (name : String)
  | number (value : Float)
  | bigint
  | str (value : String)
  /-- A chunk of a template literal: its decoded text, which is missing if an escape in it is
  invalid, and whether the literal ends with it. -/
  | quasi (cooked : Option String) (last : Bool)
  | punct (p : Punct)
  /-- The end of the text. -/
  | eof
  /-- Text that is no token. -/
  | invalid
  deriving Inhabited

/-- A token with the byte offsets of its first character and of the character after it, and whether
a line break stands before it. -/
structure Lexeme where
  token : Token
  start : Nat
  stop : Nat
  newline : Bool
  deriving Inhabited

end UiTemplate.Script
