/-!
# Quoted text

A text between double quotes, with the characters that cannot stand there escaped. `quoted` leaves
every printable character as it is; `quotedAscii` writes the ones outside ASCII as escapes, two of
them for a character beyond the basic plane.
-/

namespace UiTemplate.Json

/-- The digit for a number below sixteen. -/
def hexDigit (n : Nat) : Char :=
  if n < 10 then Char.ofNat (n + 48) else Char.ofNat (n + 87)

/-- The escape of a sixteen-bit code: a backslash, `u` and four digits. -/
def unicodeEscape (code : Nat) : List Char :=
  ['\\', 'u', hexDigit (code / 4096 % 16), hexDigit (code / 256 % 16), hexDigit (code / 16 % 16),
    hexDigit (code % 16)]

/-- A character inside quotes: the quote, the backslash and the control characters are escaped. -/
def escapeChar (c : Char) : List Char :=
  if c = '"' then ['\\', '"']
  else if c = '\\' then ['\\', '\\']
  else if c = '\n' then ['\\', 'n']
  else if c = '\r' then ['\\', 'r']
  else if c = '\t' then ['\\', 't']
  else if c.toNat = 8 then ['\\', 'b']
  else if c.toNat = 12 then ['\\', 'f']
  else if c.toNat < 32 then unicodeEscape c.toNat
  else [c]

/-- A character inside quotes, in ASCII. -/
def escapeAscii (c : Char) : List Char :=
  if c.toNat < 0x80 then escapeChar c
  else if c.toNat < 0x10000 then unicodeEscape c.toNat
  else
    let n := c.toNat - 0x10000
    unicodeEscape (0xD800 + n / 1024) ++ unicodeEscape (0xDC00 + n % 1024)

/-- A text in double quotes. -/
def quoted (s : String) : String :=
  String.ofList ('"' :: (s.toList.flatMap escapeChar ++ ['"']))

/-- A text in double quotes, in ASCII. -/
def quotedAscii (s : String) : String :=
  String.ofList ('"' :: (s.toList.flatMap escapeAscii ++ ['"']))

end UiTemplate.Json
