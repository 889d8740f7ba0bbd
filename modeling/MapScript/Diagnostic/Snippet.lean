import MapScript.Diagnostic.Cause
import MapScript.Text.Lines

/-!
# Snippets

A message with the line of the script it is about and carets under the part
meant.  The script is cut into lines at every line boundary of Unicode; the
line is shown without the line feeds and then the carriage returns at its end.
-/

namespace MapScript

/-- A message about a part of a script. -/
structure Snippet where
  severity : Text
  message : Text
  span : Span
  source : Text
  filename : Text
  notes : List Note

namespace Snippet

/-- The line of a script with a number from one on, empty if there is none. -/
def sourceLine (source : Text) : Nat → Text
  | 0 => []
  | n + 1 =>
    match (Text.lines source).drop n with
    | [] => []
    | line :: _ => Text.dropEndWhile (· == '\r') (Text.dropEndWhile (· == '\n') line.full)

/-- The number of carets: the width of a part within one line, else the rest of
its first line; never none. -/
def underline (span : Span) (line : Text) : Nat :=
  if span.stop.line = span.start.line then max 1 (span.stop.column - span.start.column)
  else max 1 (line.length + 1 - span.start.column)

/-- The snippet as text. -/
def render (s : Snippet) : Text :=
  let start := s.span.start
  let number := Text.ofNat start.line
  let gutter := Text.fill (number.length + 1) ' '
  let line := sourceLine s.source start.line
  let note (n : Note) : Text :=
    '\n' :: gutter ++ "= note: ".toList ++ n.text ++ " at ".toList ++ s.filename ++
      ':' :: n.span.start.display
  s.severity ++ ": ".toList ++ s.message ++ '\n' ::
    gutter ++ "--> ".toList ++ s.filename ++ ':' :: start.display ++ '\n' ::
    gutter ++ "|\n".toList ++
    number ++ " | ".toList ++ line ++ '\n' ::
    gutter ++ "| ".toList ++ Text.fill (start.column - 1) ' ' ++
    Text.fill (underline s.span line) '^' ++
    s.notes.flatMap note

end Snippet

end MapScript
