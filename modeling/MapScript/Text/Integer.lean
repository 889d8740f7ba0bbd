import MapScript.Number.Format
import MapScript.Text.Blank
import MapScript.Text.Numeral

/-!
# Integers in text

An integer as people write it: blanks around it, a sign, and decimal digits of
any script with single underscores between them.
-/

namespace MapScript.Text

/-- The values of the digits after the first; an underscore must stand between two
digits. -/
def laterDigits? : Text → Option (List Nat)
  | [] => some []
  | '_' :: c :: cs => do return (← decimalValue? c) :: (← laterDigits? cs)
  | c :: cs => do return (← decimalValue? c) :: (← laterDigits? cs)

/-- The values of the digits of a natural number, at least one. -/
def digits? : Text → Option (List Nat)
  | [] => none
  | c :: cs => do return (← decimalValue? c) :: (← laterDigits? cs)

/-- The natural number that a text writes, unless it has too many digits. -/
def toNat? (t : Text) : Option Nat :=
  match digits? t with
  | none => none
  | some digits =>
    if Number.maxDigits < digits.length then none
    else some (digits.foldl (fun n d => n * 10 + d) 0)

/-- A blank that may stand around an integer; the controls that separate records
may not. -/
def isMargin (c : Char) : Bool := isBlank c && !(0x1C ≤ c.toNat && c.toNat ≤ 0x1F)

/-- The integer that a text writes. -/
def toInt? (t : Text) : Option Int :=
  match dropEndWhile isMargin (t.dropWhile isMargin) with
  | '-' :: digits => (toNat? digits).map fun n => -n
  | '+' :: digits => (toNat? digits).map fun n => n
  | digits => (toNat? digits).map fun n => n

end MapScript.Text
