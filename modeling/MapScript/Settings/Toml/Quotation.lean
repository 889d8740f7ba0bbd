import MapScript.Settings.Toml.Reading

/-!
# Strings of settings files

A string stands between quotes, on one line or, between triple quotes, on
several.  Double quotes allow escapes, single ones take everything as it is.
-/

namespace MapScript.Settings.Toml

/-- The value of a hexadecimal digit. -/
def hexValue? (c : Char) : Option Nat :=
  if c.isDigit then some (c.toNat - '0'.toNat)
  else if 'a' ≤ c && c ≤ 'f' then some (c.toNat - 'a'.toNat + 10)
  else if 'A' ≤ c && c ≤ 'F' then some (c.toNat - 'A'.toNat + 10)
  else none

/-- The character with the code point that hexadecimal digits write. -/
def charOfHex (digits : Text) : Except ReadFault Char :=
  match digits.mapM hexValue? with
  | none => .error .malformed
  | some values =>
    let n := values.foldl (fun n d => n * 16 + d) 0
    if n.isValidChar then .ok (Char.ofNat n) else .error .malformed

/-- The character that a letter stands for after a backslash. -/
def escaped? : Char → Option Char
  | 'b' => some '\x08'
  | 't' => some '\t'
  | 'n' => some '\n'
  | 'f' => some '\x0c'
  | 'r' => some '\r'
  | '"' => some '"'
  | '\\' => some '\\'
  | _ => none

/-- Puts a character in front of a string that is read. -/
def consChar (c : Char) (scan : Except ReadFault (Text × Text)) : Except ReadFault (Text × Text) :=
  scan.map fun (value, rest) => (c :: value, rest)

/-- What a backslash at the end of a line leaves out. -/
inductive Skip where
  | nothing
  /-- The rest of the line, which must be blank. -/
  | line
  /-- All that is blank. -/
  | blank
deriving DecidableEq, Repr

/-- The rest of a string between double quotes, which may have several lines. -/
def basicTail (several : Bool) (skip : Skip) : Text → Except ReadFault (Text × Text)
  | [] => .error .malformed
  | c :: cs =>
    if skip = .line then
      if isSpace c then basicTail several .line cs
      else if c == '\n' then basicTail several .blank cs
      else .error .malformed
    else if skip = .blank && (isSpace c || c == '\n') then basicTail several .blank cs
    else if c == '"' then
      if !several then .ok ([], cs)
      else
        match cs with
        | '"' :: '"' :: rest => .ok ([], rest)
        | _ => consChar '"' (basicTail several .nothing cs)
    else if c == '\\' then
      match cs with
      | 'u' :: a :: b :: d :: e :: rest =>
        match charOfHex [a, b, d, e] with
        | .error e => .error e
        | .ok c => consChar c (basicTail several .nothing rest)
      | 'U' :: a :: b :: d :: e :: f :: g :: h :: i :: rest =>
        match charOfHex [a, b, d, e, f, g, h, i] with
        | .error e => .error e
        | .ok c => consChar c (basicTail several .nothing rest)
      | e :: rest =>
        if several && e == '\n' then basicTail several .blank rest
        else if several && isSpace e then basicTail several .line rest
        else
          match escaped? e with
          | none => .error .malformed
          | some c => consChar c (basicTail several .nothing rest)
      | [] => .error .malformed
    else if isControl c && !(several && c == '\n') then .error .malformed
    else consChar c (basicTail several .nothing cs)

/-- The rest of a string between single quotes, which may have several lines. -/
def literalTail (several : Bool) : Text → Except ReadFault (Text × Text)
  | [] => .error .malformed
  | c :: cs =>
    if c == '\'' then
      if !several then .ok ([], cs)
      else
        match cs with
        | '\'' :: '\'' :: rest => .ok ([], rest)
        | _ => consChar '\'' (literalTail several cs)
    else if isControl c && !(several && c == '\n') then .error .malformed
    else consChar c (literalTail several cs)

/-- A string that ends in triple quotes, with at most two more of them taken in. -/
def withExtra (quote : Char) (scan : Text × Text) : Text × Text :=
  let extra := (scan.2.take 2).takeWhile (· == quote)
  (scan.1 ++ extra, scan.2.drop extra.length)

/-- The text without a line end at its front. -/
def dropLineEnd : Text → Text
  | '\n' :: cs => cs
  | cs => cs

/-- A string on one line, if one stands first. -/
def lineString? : Text → Option (Except ReadFault (Text × Text))
  | '"' :: cs => some (basicTail false .nothing cs)
  | '\'' :: cs => some (literalTail false cs)
  | _ => none

/-- A string, if one stands first. -/
def string? : Text → Option (Except ReadFault (Text × Text))
  | '"' :: '"' :: '"' :: cs =>
    some ((basicTail true .nothing (dropLineEnd cs)).map (withExtra '"'))
  | '\'' :: '\'' :: '\'' :: cs =>
    some ((literalTail true (dropLineEnd cs)).map (withExtra '\''))
  | t => lineString? t

end MapScript.Settings.Toml
