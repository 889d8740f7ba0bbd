import MapScript.Block.Node
import MapScript.Text.Blank
import MapScript.Text.Lines
import MapScript.Token.Compact

/-!
# Engine text

An expanded script as text for the engine: the lines of its headers as comments,
then the compact text of its runs.  The engine does not nest comments, so the
marks of comments inside a header line are set apart.
-/

namespace MapScript

namespace Header

/-- Whether a line is one comment and nothing else. -/
def isComment (line : Text) : Bool :=
  ['/', '*'].isPrefixOf line &&
    match Lexer.lexScript line with
    | .ok [l] => l.kind == .comment
    | _ => false

/-- The text with a space inside every pair `a b`. -/
def setApart (a b : Char) : Text → Text
  | x :: y :: rest =>
    if x == a && y == b then a :: ' ' :: b :: setApart a b rest else x :: setApart a b (y :: rest)
  | t => t

/-- A line that is not blank, as a comment. -/
def commentLine (line : Text) : Text :=
  if isComment line then line
  else "/* ".toList ++ setApart '/' '*' (setApart '*' '/' line) ++ " */".toList

/-- One comment for each line of the header that is not blank. -/
def lines (h : Header) : List Text :=
  (((Text.lines h.text).map fun l => Text.strip l.content).filter fun l => !l.isEmpty).map
    commentLine

end Header

namespace Piece

/-- The lines of a part that go before the script text. -/
def headerLines : Piece → List Text
  | header h => h.lines
  | _ => []

/-- The lexemes of a part that make the script text. -/
def lexemes : Piece → List Lexeme
  | run r => r.tokens.map Token.toLexeme
  | _ => []

end Piece

/-- The text of an expanded script, without a line break at its end. -/
def engineText (keepLines : Bool) (pieces : List Piece) : Text :=
  let body := Compact.render keepLines (pieces.flatMap Piece.lexemes)
  Text.join ['\n'] (pieces.flatMap Piece.headerLines ++ if body.isEmpty then [] else [body])

end MapScript
