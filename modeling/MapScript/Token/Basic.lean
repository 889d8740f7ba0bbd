import MapScript.Position

/-!
# Tokens

A lexeme is a piece of script text with its kind; a token is a lexeme at its
place.  The value of a token is a function of its lexeme: a directive drops its
hash sign, a string its quotes and the backslashes before quotes, and every line
break is a line feed.
-/

namespace MapScript

/-- What a piece of text is in a script. -/
inductive TokenKind where
  /-- A hash sign and a name. -/
  | directive
  /-- A letter or underscore, then letters, digits and underscores. -/
  | word
  /-- Digits, with a point and digits after it or without. -/
  | number
  /-- Text between double quotes. -/
  | string
  /-- One character of punctuation. -/
  | punct
  /-- Prose, and characters that fit nowhere else. -/
  | text
  /-- A comment, nested or to the end of the line. -/
  | comment
  /-- Space within a line. -/
  | blank
  /-- The end of a line. -/
  | newline
  /-- The end of the script. -/
  | finish
deriving DecidableEq, Repr

namespace TokenKind

/-- Kinds that only separate other tokens. -/
def isTrivia : TokenKind → Bool
  | comment | blank | newline => true
  | _ => false

/-- Kinds that the engine reads as whole words. -/
def isWordlike : TokenKind → Bool
  | word | number | directive | string | text => true
  | _ => false

end TokenKind

/-- A character that can begin a name. -/
def isNameStart (c : Char) : Bool := c == '_' || c.isAlpha

/-- A character that can continue a name. -/
def isNameChar (c : Char) : Bool := c == '_' || c.isAlphanum

/-- The characters that are punctuation wherever they do not begin a comment. -/
def punctuation : Text := "()\x7b\x7d[],;:+-*/<>=!&|%^~.?@$'`\\".toList

/-- A piece of script text and what it is. -/
structure Lexeme where
  kind : TokenKind
  raw : Text
deriving DecidableEq, Repr

namespace Lexeme

/-- The text of a string without the backslashes before its quotes. -/
def unescape : Text → Text
  | '\\' :: '"' :: cs => '"' :: unescape cs
  | c :: cs => c :: unescape cs
  | [] => []

/-- What the lexeme stands for. -/
def value (l : Lexeme) : Text :=
  match l.kind with
  | .directive => l.raw.drop 1
  | .string => unescape (l.raw.drop 1).dropLast
  | .newline => ['\n']
  | _ => l.raw

/-- Whether the lexeme only separates others. -/
def isTrivia (l : Lexeme) : Bool := l.kind.isTrivia

/-- The texts of lexemes one after the other. -/
def rawText (ls : List Lexeme) : Text := ls.flatMap Lexeme.raw

end Lexeme

/-- A lexeme at its place. -/
structure Token extends Lexeme where
  span : Span
deriving DecidableEq, Repr

namespace Token

/-- Whether the token only separates others. -/
def isTrivia (t : Token) : Bool := t.kind.isTrivia

/-- What the token stands for. -/
def value (t : Token) : Text := t.toLexeme.value

/-- Whether the token is the given character of punctuation. -/
def isPunct (c : Char) (t : Token) : Bool := t.kind == .punct && t.raw == [c]

/-- Whether the token is a directive of the given name, upper case. -/
def isDirective (name : Text) (t : Token) : Bool :=
  t.kind == .directive && Text.upper t.value == name

/-- Whether the token is the given word. -/
def isWord (name : Text) (t : Token) : Bool := t.kind == .word && t.raw == name

/-- A token that does not stand in the script, given the place it comes from. -/
def made (kind : TokenKind) (raw : Text) (span : Span) : Token := ⟨⟨kind, raw⟩, span⟩

/-- The tokens that do not only separate others. -/
def significant (ts : List Token) : List Token := ts.filter fun t => !t.isTrivia

/-- The texts of tokens one after the other. -/
def rawText (ts : List Token) : Text := ts.flatMap fun t => t.raw

/-- The part of the script from the first token to the last. -/
def spanOf (first : Token) (rest : List Token) : Span :=
  ⟨first.span.start, ((first :: rest).getLast (by simp)).span.stop⟩

end Token

end MapScript
