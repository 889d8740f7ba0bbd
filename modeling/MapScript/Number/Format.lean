import MapScript.Number.Basic
import MapScript.Number.Decimal

/-!
# Number texts

Reading a numeral of a script and writing a number as script text.  A numeral
with a point is a double, correctly rounded; one without is an exact integer.
A number without a fraction is written as an integer, any other with six places,
the exact value going to the nearest and from the middle to the even last digit,
less the zeros at the end.  Integers beyond a length are neither read nor written.
-/

namespace MapScript.Number

/-- The most digits of an integer that is read or written. -/
def maxDigits : Nat := 4300

/-- The natural number that a row of digits writes, unless the row is too long;
zeros in front count. -/
def readNat (digits : Text) : Except Fault Nat :=
  if maxDigits < digits.length then .error .tooLong else .ok (ofDigits digits)

/-- The number that a numeral `digits` or `digits.digits` writes. -/
def parse (numeral : Text) : Except Fault Number :=
  match numeral.span (· != '.') with
  | (whole, []) => (readNat whole).map fun n => int n
  | (whole, _ :: fraction) => .ok (float ((Decimal.ofParts whole fraction 0).toBinary64 false))

/-- The numeral of an integer, unless it is too long. -/
def writeInt (n : Int) : Except Fault Text :=
  if maxDigits < (Text.ofNat n.natAbs).length then .error .tooLong else .ok (Text.ofInt n)

/-- A count of millionths with a point before the last six digits. -/
def fixedSix (millionths : Nat) : Text :=
  let fraction := Text.ofNat (millionths % 1000000)
  Text.ofNat (millionths / 1000000) ++ '.' :: Text.fill (6 - fraction.length) '0' ++ fraction

/-- A finite magnitude with six places, less zeros at the end and a point left
over. -/
def formatMagnitude (units : Nat) : Text :=
  Text.dropEndWhile (· == '.')
    (Text.dropEndWhile (· == '0') (fixedSix (nearestEven (units * 1000000) Binary64.one)))

/-- A double as script text. -/
def formatDouble (x : Binary64) : Text :=
  match x with
  | .nan _ => "nan".toList
  | .infinity negative => (if negative then ['-'] else []) ++ "inf".toList
  | .finite negative units =>
    if x.isIntegral then Text.ofInt x.truncate
    else (if negative then ['-'] else []) ++ formatMagnitude units

/-- A number as script text, unless it is too long. -/
def format : Number → Except Fault Text
  | int n => writeInt n
  | float x => .ok (formatDouble x)

end MapScript.Number
