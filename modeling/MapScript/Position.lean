import MapScript.Text.Basic

/-!
# Positions

Where a character stands in a script.  Only a line feed begins a new line; lines
and columns count from one and offsets from zero, all of them in characters.
-/

namespace MapScript

/-- A place between two characters of a script. -/
structure Position where
  line : Nat
  column : Nat
  offset : Nat
deriving DecidableEq, Repr

namespace Position

/-- The place before the first character. -/
def origin : Position := ⟨1, 1, 0⟩

/-- The place after one more character. -/
def next (p : Position) (c : Char) : Position :=
  if c = '\n' then ⟨p.line + 1, 1, p.offset + 1⟩ else ⟨p.line, p.column + 1, p.offset + 1⟩

/-- The place after a text that begins at `p`. -/
def advance (p : Position) (t : Text) : Position := t.foldl next p

@[simp] theorem advance_nil (p : Position) : p.advance [] = p := rfl

theorem advance_cons (p : Position) (c : Char) (t : Text) :
    p.advance (c :: t) = (p.next c).advance t := rfl

theorem advance_append (p : Position) (s t : Text) :
    p.advance (s ++ t) = (p.advance s).advance t := by
  simp [advance]

/-- Line and column as they are shown to a reader. -/
def display (p : Position) : Text := Text.ofNat p.line ++ ':' :: Text.ofNat p.column

end Position

/-- The part of a script between two places. -/
structure Span where
  start : Position
  stop : Position
deriving DecidableEq, Repr

namespace Span

/-- The empty part at a place. -/
def point (p : Position) : Span := ⟨p, p⟩

/-- One column from a place on. -/
def column (p : Position) : Span := ⟨p, ⟨p.line, p.column + 1, p.offset + 1⟩⟩

end Span

end MapScript
