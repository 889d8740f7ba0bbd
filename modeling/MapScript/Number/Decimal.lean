import MapScript.Number.Binary64
import MapScript.Text.Basic

/-!
# Decimals

Rows of digits, the numbers they write, and decimals with an exponent as doubles.
An exponent far outside the range of the format is answered without raising ten
to it.
-/

namespace MapScript

/-- The value of a digit. -/
def digitValue (c : Char) : Nat := c.toNat - '0'.toNat

/-- The natural number that a row of digits writes. -/
def ofDigits (digits : Text) : Nat :=
  digits.foldl (fun n c => n * 10 + digitValue c) 0

/-- The decimal `digits * 10^exponent`. -/
structure Decimal where
  digits : Nat
  exponent : Int
deriving DecidableEq, Repr

namespace Decimal

/-- The decimal with digits before and after a point and an exponent. -/
def ofParts (whole fraction : Text) (exponent : Int) : Decimal :=
  ⟨ofDigits (whole ++ fraction), exponent - fraction.length⟩

/-- The double nearest to a decimal, infinite or zero beyond the range.  A decimal
of `10^400` or more is infinite, and one below `10^-400` is zero. -/
def toBinary64 (negative : Bool) (d : Decimal) : Binary64 :=
  if d.digits = 0 then .finite negative 0
  else if 400 < d.exponent then .infinity negative
  else if d.exponent + d.digits.log2 + 1 < -400 then .finite negative 0
  else
    match d.exponent with
    | .ofNat e => .ofRatio negative (d.digits * Nat.pow 10 e) 1
    | .negSucc e => .ofRatio negative d.digits (Nat.pow 10 (e + 1))

end Decimal

end MapScript
