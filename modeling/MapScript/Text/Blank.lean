import MapScript.Text.Basic

/-!
# Blanks

The characters of Unicode white space, and a text without those at its ends.
-/

namespace MapScript.Text

/-- The code points of white space. -/
def blankRanges : List (Nat × Nat) :=
  [(0x9, 0xD), (0x1C, 0x20), (0x85, 0x85), (0xA0, 0xA0), (0x1680, 0x1680), (0x2000, 0x200A),
   (0x2028, 0x2029), (0x202F, 0x202F), (0x205F, 0x205F), (0x3000, 0x3000)]

/-- Whether a character is white space in any script. -/
def isBlank (c : Char) : Bool := inRanges blankRanges c

/-- The text between its first and its last character that is no blank. -/
def strip (t : Text) : Text := dropEndWhile isBlank (t.dropWhile isBlank)

end MapScript.Text
