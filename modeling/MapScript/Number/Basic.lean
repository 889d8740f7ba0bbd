import MapScript.Number.Binary64

/-!
# Numbers of a script

A script number is an exact integer or a double.  Integers stay exact under
sum, difference and product; one double operand brings the other into its
format, and a quotient is always a double.  What cannot be computed is a fault.
-/

namespace MapScript

/-- Why an arithmetic operation has no result. -/
inductive Fault where
  /-- A value beyond the range of the format asked for. -/
  | overflow
  /-- A result that is no number where one is needed. -/
  | invalid
  /-- A division by zero. -/
  | zeroDivision
  /-- An integer with more digits than are read or written. -/
  | tooLong
deriving DecidableEq, Repr

/-- A number of a script. -/
inductive Number where
  | int (value : Int)
  | float (value : Binary64)
deriving DecidableEq, Repr

namespace Number

/-- The value as a double; an integer beyond its range is a fault. -/
def toDouble : Number → Except Fault Binary64
  | float x => .ok x
  | int n =>
    let x := Binary64.ofInt n
    if x.isInfinite then .error .overflow else .ok x

/-- The number with the other sign. -/
def neg : Number → Number
  | int n => int (-n)
  | float x => float x.neg

/-- Zero, as an integer or as a double of either sign. -/
def isZero : Number → Bool
  | int n => n == 0
  | float x => x.isZero

/-- An operation that is exact on integers and rounded as soon as one operand
is a double. -/
def arith (exact : Int → Int → Int) (rounded : Binary64 → Binary64 → Binary64) :
    Number → Number → Except Fault Number
  | int a, int b => .ok (int (exact a b))
  | a, b => do
    let x ← a.toDouble
    let y ← b.toDouble
    return float (rounded x y)

/-- The sum. -/
def add : Number → Number → Except Fault Number := arith (· + ·) Binary64.add

/-- The difference. -/
def sub : Number → Number → Except Fault Number := arith (· - ·) Binary64.sub

/-- The product. -/
def mul : Number → Number → Except Fault Number := arith (· * ·) Binary64.mul

/-- The double nearest to the exact quotient of two integers. -/
def intQuotient (a b : Int) : Except Fault Binary64 :=
  if b = 0 then .error .zeroDivision
  else
    let x := Binary64.ofRatio ((a < 0) != (b < 0)) a.natAbs b.natAbs
    if x.isInfinite then .error .overflow else .ok x

/-- The quotient, as a double. -/
def div : Number → Number → Except Fault Binary64
  | int a, int b => intQuotient a b
  | a, b => do
    let x ← a.toDouble
    let y ← b.toDouble
    if y.isZero then .error .zeroDivision else return x.div y

/-- The integer nearest to a double, from the middle the one farther from zero:
the floor of the magnitude increased by one half, under the sign of the double. -/
def roundAway (x : Binary64) : Except Fault Int :=
  match x.abs.add Binary64.half with
  | .nan _ => .error .invalid
  | .infinity _ => .error .overflow
  | .finite _ units =>
    .ok (Binary64.signed x.isNegative (units / Binary64.one))

/-- The nearest integer of a number, by way of a double. -/
def round (n : Number) : Except Fault Int := do
  let x ← n.toDouble
  roundAway x

/-- The integer that a number is, if it has no fraction. -/
def asInt? : Number → Option Int
  | int n => some n
  | float x => if x.isIntegral then some x.truncate else none

end Number

end MapScript
