import MapScript.Text.Printable

/-!
# Quoted text

A text between quotes, on one line and readable: quotes are single unless the
text has a single quote and no double one; the backslash, the chosen quote and
the usual controls get a backslash, and what is not printable is written by its
code point in two, four or eight hexadecimal digits.
-/

namespace MapScript.Text

/-- The hexadecimal digits of a number, filled with zeros to a width. -/
def hexadecimal (width n : Nat) : Text :=
  let digits := Nat.toDigits 16 n
  fill (width - digits.length) '0' ++ digits

/-- The quote a text is put between. -/
def quoteFor (t : Text) : Char :=
  if t.contains '\'' && !t.contains '"' then '"' else '\''

/-- A character as it is written between the given quotes. -/
def escape (quote c : Char) : Text :=
  if c == quote || c == '\\' then ['\\', c]
  else if c == '\n' then ['\\', 'n']
  else if c == '\r' then ['\\', 'r']
  else if c == '\t' then ['\\', 't']
  else if isPrintable c then [c]
  else if c.toNat < 0x100 then '\\' :: 'x' :: hexadecimal 2 c.toNat
  else if c.toNat < 0x10000 then '\\' :: 'u' :: hexadecimal 4 c.toNat
  else '\\' :: 'U' :: hexadecimal 8 c.toNat

/-- The text between quotes. -/
def quoted (t : Text) : Text :=
  let quote := quoteFor t
  quote :: t.flatMap (escape quote) ++ [quote]

end MapScript.Text
