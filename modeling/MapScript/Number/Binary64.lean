/-!
# Double precision numbers

A finite number of the binary64 format is a sign and a count of units, one unit
being `2^-1074`, the least positive value of the format.  Sums and comparisons
are then those of integers, and every operation is its exact result brought back
into the format by one function, `roundRatio`, which goes to the nearest
representable count and to the even one from the middle.
-/

namespace MapScript

/-- A number of the binary64 format. -/
inductive Binary64 where
  /-- No number; only its sign is kept. -/
  | nan (negative : Bool)
  | infinity (negative : Bool)
  /-- So many times `2^-1074`. -/
  | finite (negative : Bool) (units : Nat)
deriving DecidableEq, Repr

/-- The natural number nearest to `num / den`, from the middle the even one. -/
def nearestEven (num den : Nat) : Nat :=
  let below := num / den
  let twice := 2 * (num % den)
  if twice < den then below
  else if den < twice then below + 1
  else if below % 2 = 0 then below
  else below + 1

namespace Binary64

/-- The number of units in one. -/
def one : Nat := Nat.pow 2 1074

/-- The least count of units beyond the format. -/
def limit : Nat := Nat.pow 2 2098

/-- The distance between neighbours of the format around `num / den` units: 53
binary digits are kept. -/
def spacing (num den : Nat) : Nat := Nat.pow 2 ((num / den).log2 - 52)

/-- The count of units of the format nearest to `num / den` units. -/
def roundRatio (num den : Nat) : Nat :=
  nearestEven num (den * spacing num den) * spacing num den

/-- The number nearest to `num / den` units, infinite from the limit on. -/
def ofUnits (negative : Bool) (num den : Nat) : Binary64 :=
  let units := roundRatio num den
  if units < limit then .finite negative units else .infinity negative

/-- The number nearest to `num / den`. -/
def ofRatio (negative : Bool) (num den : Nat) : Binary64 := ofUnits negative (num * one) den

/-- The number nearest to an integer. -/
def ofInt (n : Int) : Binary64 := ofRatio (n < 0) n.natAbs 1

/-- The signed count of units. -/
def signed (negative : Bool) (units : Nat) : Int := if negative then -units else units

/-- The result of an operation that has none. -/
def invalid : Binary64 := .nan true

/-- One half. -/
def half : Binary64 := .finite false (one / 2)

def isNaN : Binary64 → Bool
  | nan _ => true
  | _ => false

def isInfinite : Binary64 → Bool
  | infinity _ => true
  | _ => false

/-- Whether the sign is a minus; zeros have a sign. -/
def isNegative : Binary64 → Bool
  | nan s | infinity s | finite s _ => s

/-- Zero of either sign. -/
def isZero : Binary64 → Bool
  | finite _ 0 => true
  | _ => false

/-- The number with the other sign. -/
def neg : Binary64 → Binary64
  | nan s => nan !s
  | infinity s => infinity !s
  | finite s u => finite (!s) u

/-- The number without its sign. -/
def abs : Binary64 → Binary64
  | nan _ => nan false
  | infinity _ => infinity false
  | finite _ u => finite false u

/-- The sum; two zeros make a negative one only if both are negative. -/
def add : Binary64 → Binary64 → Binary64
  | nan s, _ => nan s
  | _, nan s => nan s
  | infinity s, infinity t => if s == t then infinity s else invalid
  | infinity s, finite _ _ => infinity s
  | finite _ _, infinity t => infinity t
  | finite s a, finite t b =>
    let total := signed s a + signed t b
    if total = 0 then finite (s && t) 0 else ofUnits (total < 0) total.natAbs 1

/-- The difference. -/
def sub : Binary64 → Binary64 → Binary64
  | a, nan s => match a with
    | nan r => nan r
    | _ => nan s
  | a, b => add a b.neg

/-- The product. -/
def mul : Binary64 → Binary64 → Binary64
  | nan s, _ => nan s
  | _, nan s => nan s
  | infinity s, infinity t => infinity (s != t)
  | infinity s, finite t b => if b = 0 then invalid else infinity (s != t)
  | finite s a, infinity t => if a = 0 then invalid else infinity (s != t)
  | finite s a, finite t b => ofUnits (s != t) (a * b) one

/-- The quotient by a divisor other than zero. -/
def div : Binary64 → Binary64 → Binary64
  | nan s, _ => nan s
  | _, nan s => nan s
  | infinity _, infinity _ => invalid
  | infinity s, finite t _ => infinity (s != t)
  | finite s _, infinity t => finite (s != t) 0
  | finite s a, finite t b => ofUnits (s != t) (a * one) b

/-- At most; never between or beside numbers that are none. -/
def le : Binary64 → Binary64 → Bool
  | nan _, _ | _, nan _ => false
  | infinity true, _ | _, infinity false => true
  | infinity false, _ | _, infinity true => false
  | finite s a, finite t b => signed s a ≤ signed t b

/-- Less than; never between or beside numbers that are none. -/
def lt (a b : Binary64) : Bool := le a b && !le b a

/-- A finite number without a fraction. -/
def isIntegral : Binary64 → Bool
  | finite _ u => u % one = 0
  | _ => false

/-- The part of a finite number before the point. -/
def truncate : Binary64 → Int
  | finite s u => signed s (u / one)
  | _ => 0

/-- The first of the 53 binary digits of a number, which its bits leave out. -/
def leadingBit : Nat := 0x10000000000000

/-- The bit of the sign. -/
def signBit : Nat := 0x8000000000000000

/-- The bit pattern of the number, sign and exponent in front. -/
def toBits : Binary64 → Nat
  | nan s => sign s + 0x7FF8000000000000
  | infinity s => sign s + 0x7FF0000000000000
  | finite s u =>
    if u < leadingBit then sign s + u
    else
      let shift := u.log2 - 52
      sign s + (shift + 1) * leadingBit + (u / Nat.pow 2 shift - leadingBit)
where
  sign (negative : Bool) : Nat := if negative then signBit else 0

/-- The number with a bit pattern of 64 bits. -/
def ofBits (bits : Nat) : Binary64 :=
  let negative := bits / signBit % 2 = 1
  let exponent := bits / leadingBit % 2048
  let fraction := bits % leadingBit
  if exponent = 2047 then (if fraction = 0 then infinity negative else nan negative)
  else if exponent = 0 then finite negative fraction
  else finite negative ((fraction + leadingBit) * Nat.pow 2 (exponent - 1))

/-- The machine number of the same bits. -/
def toFloat (x : Binary64) : Float := Float.ofBits x.toBits.toUInt64

/-- The number of the same bits as a machine number. -/
def ofFloat (x : Float) : Binary64 := ofBits x.toBits.toNat

/-- The cosine, to the precision of the machine. -/
def cos (x : Binary64) : Binary64 := if x.isNaN then x else ofFloat x.toFloat.cos

/-- The sine, to the precision of the machine. -/
def sin (x : Binary64) : Binary64 := if x.isNaN then x else ofFloat x.toFloat.sin

end Binary64

end MapScript
