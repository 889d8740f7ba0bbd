import MapScript.Number.Decimal

/-!
# Shortest decimals

The decimal of a double with the fewest digits that reads back as the same
double, nearest to it among those.  It is written without an exponent from
`10^-4` up to, not including, `10^16`, and always with a point or an exponent.
-/

namespace MapScript.Binary64

/-- The two decimals with a given exponent around a magnitude, the nearer first. -/
def decimalsAround (units : Nat) (exponent : Int) : List Decimal :=
  let (num, den) := match exponent with
    | .ofNat e => (units, one * Nat.pow 10 e)
    | .negSucc e => (units * Nat.pow 10 (e + 1), one)
  let below := num / den
  let nearest := nearestEven num den
  [⟨nearest, exponent⟩, ⟨if nearest = below then below + 1 else below, exponent⟩]

/-- The number of digits before the point of a magnitude, negative for zeros
after it: the `k` with `10^(k-1) ≤ units * 2^-1074 < 10^k`. -/
def magnitudeDigits (units : Nat) : Int :=
  let whole := units / one
  if whole = 0 then
    let scaled := units * Nat.pow 10 400 / one
    (Nat.toDigits 10 scaled).length - 400
  else (Nat.toDigits 10 whole).length

/-- The shortest decimal that reads back, tried with 1, 2, ... 17 digits. -/
def shortestDecimal (units : Nat) : Decimal :=
  let top := magnitudeDigits units
  let candidates := (List.range 17).flatMap fun (n : Nat) =>
    decimalsAround units (top - (n : Int) - 1)
  (candidates.find? fun d => d.toBinary64 false = finite false units).getD ⟨0, 0⟩

/-- The digits of a number with the zeros at the end counted off. -/
def trimZeros (d : Decimal) : Text × Int :=
  let digits := Text.ofNat d.digits
  let kept := Text.dropEndWhile (· == '0') digits
  (kept, d.exponent + (digits.length - kept.length : Nat))

/-- Digits with a point after the first `point` of them, or with an exponent if
the point would stand far off. -/
def writeDecimal (digits : Text) (point : Int) : Text :=
  if -4 < point && point ≤ 16 then
    match point with
    | .ofNat 0 => '0' :: '.' :: digits
    | .ofNat p =>
      if digits.length ≤ p then digits ++ Text.fill (p - digits.length) '0' ++ ['.', '0']
      else digits.take p ++ '.' :: digits.drop p
    | .negSucc p => '0' :: '.' :: Text.fill (p + 1) '0' ++ digits
  else
    let exponent := point - 1
    let width := Text.ofNat exponent.natAbs
    let mantissa := match digits with
      | [] => []
      | [d] => [d]
      | d :: ds => d :: '.' :: ds
    mantissa ++ 'e' :: (if exponent < 0 then '-' else '+') ::
      Text.fill (2 - width.length) '0' ++ width

/-- A double by its shortest decimal. -/
def shortest : Binary64 → Text
  | nan _ => "nan".toList
  | infinity negative => (if negative then ['-'] else []) ++ "inf".toList
  | finite negative units =>
    (if negative then ['-'] else []) ++
      if units = 0 then "0.0".toList
      else
        let (digits, exponent) := trimZeros (shortestDecimal units)
        writeDecimal digits (exponent + digits.length)

end MapScript.Binary64
