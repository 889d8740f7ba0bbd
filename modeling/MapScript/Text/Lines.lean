import MapScript.Text.Basic

/-!
# Lines

A text falls into lines at every line boundary of Unicode and at the control
characters that separate records; a carriage return with a line feed is one
boundary.  The last line has no end if the text does not end in a boundary.
-/

namespace MapScript.Text

/-- The code points that end a line. -/
def lineEndRanges : List (Nat × Nat) :=
  [(0xA, 0xD), (0x1C, 0x1E), (0x85, 0x85), (0x2028, 0x2029)]

/-- Whether a character ends a line. -/
def isLineEnd (c : Char) : Bool := inRanges lineEndRanges c

/-- A line and the boundary that ends it, empty at the end of the text. -/
structure Line where
  content : Text
  ending : Text
deriving DecidableEq, Repr

namespace Line

/-- The line as it stands in the text. -/
def full (l : Line) : Text := l.content ++ l.ending

/-- The lines that remain when `c` is put in front of the first of them. -/
def consFirst (c : Char) : List Line → List Line
  | [] => [⟨[c], []⟩]
  | l :: ls => ⟨c :: l.content, l.ending⟩ :: ls

end Line

/-- The lines of a text in order. -/
def lines : Text → List Line
  | [] => []
  | '\r' :: '\n' :: cs => ⟨[], ['\r', '\n']⟩ :: lines cs
  | c :: cs => if isLineEnd c then ⟨[], [c]⟩ :: lines cs else Line.consFirst c (lines cs)

end MapScript.Text
