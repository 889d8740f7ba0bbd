import MapScript.Number.Basic
import MapScript.Text.Basic

/-!
# Reading settings files

What the readers of a settings file share: why one gives up, how much of the text
one has taken, and the spaces, comments and line ends between what is read.
-/

namespace MapScript.Settings.Toml

/-- Why a settings file cannot be read. -/
inductive ReadFault where
  | malformed
  /-- A number that is well formed and cannot be taken. -/
  | number (fault : Fault)
deriving DecidableEq, Repr

/-- What is read off the front of a text, and what is left: fewer characters than
`bound`. -/
structure Reading (α : Type) (bound : Nat) where
  value : α
  rest : Text
  shorter : rest.length < bound

/-- What a scanner has read and left, if it has taken anything. -/
def Reading.ofScan (bound : Nat) (scan : α × Text) : Except ReadFault (Reading α bound) :=
  if h : scan.2.length < bound then .ok ⟨scan.1, scan.2, h⟩ else .error .malformed

/-- Space within a line. -/
def isSpace (c : Char) : Bool := c == ' ' || c == '\t'

/-- The text from its first character that is no space. -/
def dropSpace (t : Text) : Text := t.dropWhile isSpace

/-- Controls, which stand in no comment and no string; the tab is allowed. -/
def isControl (c : Char) : Bool := (c.toNat < 32 && c != '\t') || c.toNat == 127

/-- What follows the spaces, line ends and comments at the front, the text at hand
being in a comment or not. -/
def skipGap (comment : Bool) : Text → Except ReadFault Text
  | [] => .ok []
  | c :: cs =>
    if c == '\n' then skipGap false cs
    else if comment then (if isControl c then .error .malformed else skipGap true cs)
    else if isSpace c then skipGap false cs
    else if c == '#' then skipGap true cs
    else .ok (c :: cs)

/-- The text of the next line, where nothing but space and a comment may stand
before it. -/
def nextLine (comment : Bool) : Text → Except ReadFault Text
  | [] => .ok []
  | c :: cs =>
    if c == '\n' then .ok cs
    else if comment then (if isControl c then .error .malformed else nextLine true cs)
    else if isSpace c then nextLine false cs
    else if c == '#' then nextLine true cs
    else .error .malformed

/-- A gap is no longer than the text. -/
theorem length_skipGap_le {comment : Bool} {t rest : Text} (h : skipGap comment t = .ok rest) :
    rest.length ≤ t.length := by
  induction t generalizing comment with
  | nil =>
    cases h
    exact Nat.le_refl _
  | cons c cs ih =>
    unfold skipGap at h
    simp only [List.length_cons]
    repeat' split at h
    · exact Nat.le_succ_of_le (ih h)
    · simp at h
    · exact Nat.le_succ_of_le (ih h)
    · exact Nat.le_succ_of_le (ih h)
    · exact Nat.le_succ_of_le (ih h)
    · cases h
      simp

end MapScript.Settings.Toml
