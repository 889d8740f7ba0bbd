import MapScript.Settings.Toml.Quotation
import MapScript.Settings.Value

/-!
# Single values of settings files

Truth values, dates, times and numbers.  What begins like a date is tried as one
first; a number is whole unless a fraction or an exponent follows its digits.
-/

namespace MapScript.Settings.Toml

/-! ### Dates and times -/

/-- So many digits as a number. -/
def fixed? (width : Nat) (t : Text) : Option (Nat × Text) :=
  let digits := t.take width
  if digits.length = width && digits.all Char.isDigit then some (ofDigits digits, t.drop width)
  else none

/-- The text after a character that must stand first. -/
def after? (c : Char) : Text → Option Text
  | d :: cs => if d = c then some cs else none
  | [] => none

/-- The form of a date, whether the calendar has it or not. -/
def date? (t : Text) : Option (Date × Text) := do
  let (year, t) ← fixed? 4 t
  let (month, t) ← fixed? 2 (← after? '-' t)
  let (day, t) ← fixed? 2 (← after? '-' t)
  if 1 ≤ month && month ≤ 12 && 1 ≤ day && day ≤ 31 then some (⟨year, month, day⟩, t) else none

/-- The millionths in a fraction of a second, if one stands first. -/
def micros (t : Text) : Nat × Text :=
  match t with
  | '.' :: cs =>
    let digits := cs.takeWhile Char.isDigit
    if digits.isEmpty then (0, t)
    else (ofDigits ((digits ++ Text.fill 6 '0').take 6), cs.drop digits.length)
  | _ => (0, t)

/-- A time of the day. -/
def clock? (t : Text) : Option (Clock × Text) := do
  let (hour, t) ← fixed? 2 t
  let (minute, t) ← fixed? 2 (← after? ':' t)
  let (second, t) ← fixed? 2 (← after? ':' t)
  if hour < 24 && minute < 60 && second < 60 then
    let (micro, t) := micros t
    some (⟨hour, minute, second, micro⟩, t)
  else none

/-- The minutes ahead of universal time, if they stand first. -/
def offset? (t : Text) : Option (Int × Text) :=
  match t with
  | 'Z' :: cs | 'z' :: cs => some (0, cs)
  | c :: cs =>
    if c = '+' || c = '-' then do
      let (hour, cs) ← fixed? 2 cs
      let (minute, cs) ← fixed? 2 (← after? ':' cs)
      let minutes : Int := hour * 60 + minute
      if hour < 24 && minute < 60 then some (if c = '-' then -minutes else minutes, cs) else none
    else none
  | [] => none

/-- The time that follows a date after a space or a letter. -/
def dayTime? : Text → Option (Clock × Text)
  | c :: cs => if c = 'T' || c = 't' || c = ' ' then clock? cs else none
  | [] => none

/-- A moment, if one stands first; the calendar must have its date. -/
def moment? (t : Text) : Option (Except ReadFault (Moment × Text)) :=
  match date? t with
  | some (d, rest) =>
    let found : Moment × Text := match dayTime? rest with
      | none => (.date d, rest)
      | some (c, rest) =>
        match offset? rest with
        | none => (.both d c none, rest)
        | some (o, rest) => (.both d c (some o), rest)
    some (if d.isValid then .ok found else .error .malformed)
  | none => (clock? t).map fun (c, rest) => .ok (.time c, rest)

/-! ### Numbers -/

/-- The digits at the front, with single underscores before digits left out. -/
def digitTail (isDigit : Char → Bool) : Text → Text × Text
  | [] => ([], [])
  | c :: cs =>
    if isDigit c then
      let (digits, rest) := digitTail isDigit cs
      (c :: digits, rest)
    else if c == '_' && cs.head?.any isDigit then digitTail isDigit cs
    else ([], c :: cs)

/-- The digits at the front, with single underscores between them left out. -/
def digitRun (isDigit : Char → Bool) (t : Text) : Text × Text :=
  if t.head?.any isDigit then digitTail isDigit t else ([], t)

/-- The base and the digits of an integer that is not decimal. -/
def radix? : Char → Option (Nat × (Char → Bool))
  | 'x' => some (16, fun c => (hexValue? c).isSome)
  | 'o' => some (8, fun c => '0' ≤ c && c ≤ '7')
  | 'b' => some (2, fun c => c == '0' || c == '1')
  | _ => none

/-- An integer that is not decimal, if one stands first. -/
def based? : Text → Option (Value × Text)
  | '0' :: c :: cs =>
    match radix? c with
    | none => none
    | some (base, isDigit) =>
      match digitRun isDigit cs with
      | ([], _) => none
      | (digits, rest) =>
        let n := digits.foldl (fun n d => n * base + (hexValue? d).getD 0) 0
        some (.int n, rest)
  | _ => none

/-- The digits before the point: a zero, or digits that do not begin with one. -/
def wholeRun : Text → Text × Text
  | '0' :: cs => (['0'], cs)
  | cs => digitRun Char.isDigit cs

/-- The digits after a point, if both are there. -/
def fractionRun : Text → Text × Text
  | '.' :: cs =>
    match digitRun Char.isDigit cs with
    | ([], _) => ([], '.' :: cs)
    | found => found
  | cs => ([], cs)

/-- A sign, if one stands first. -/
def signOf : Text → Bool × Text
  | '-' :: cs => (true, cs)
  | '+' :: cs => (false, cs)
  | cs => (false, cs)

/-- An exponent, if one stands first. -/
def exponent? : Text → Option (Int × Text)
  | c :: cs =>
    if c = 'e' || c = 'E' then
      let (negative, digits) := signOf cs
      match digitRun Char.isDigit digits with
      | ([], _) => none
      | (digits, rest) =>
        let n : Int := ofDigits digits
        some (if negative then -n else n, rest)
    else none
  | [] => none

/-- A decimal number, if one stands first. -/
def decimal? (t : Text) : Option (Except ReadFault (Value × Text)) :=
  let (negative, unsigned) := signOf t
  match wholeRun unsigned with
  | ([], _) => none
  | (whole, rest) =>
    match fractionRun rest, exponent? (fractionRun rest).2 with
    | ([], _), none =>
      some (match Number.readNat whole with
        | .error f => .error (.number f)
        | .ok n => .ok (.int (if negative then -n else n), rest))
    | (fraction, rest), none =>
      some (.ok (.float ((Decimal.ofParts whole fraction 0).toBinary64 negative), rest))
    | (fraction, _), some (e, rest) =>
      some (.ok (.float ((Decimal.ofParts whole fraction e).toBinary64 negative), rest))

/-- The values that are words. -/
def namedValues : List (Text × Value) :=
  [("true".toList, .bool true), ("false".toList, .bool false)]

/-- The numbers that are words. -/
def namedNumbers : List (Text × Value) :=
  [("inf".toList, .float (.infinity false)), ("nan".toList, .float (.nan false)),
    ("+inf".toList, .float (.infinity false)), ("+nan".toList, .float (.nan false)),
    ("-inf".toList, .float (.infinity true)), ("-nan".toList, .float (.nan true))]

/-- The word of a list that stands first, and its value. -/
def named? (names : List (Text × Value)) (t : Text) : Option (Value × Text) :=
  (names.find? fun (name, _) => name.isPrefixOf t).map fun (name, v) => (v, t.drop name.length)

/-- A single value. -/
def scalar (t : Text) : Except ReadFault (Value × Text) :=
  match string? t with
  | some scan => scan.map fun (s, rest) => (.string s, rest)
  | none =>
    match named? namedValues t with
    | some found => .ok found
    | none =>
      match moment? t with
      | some scan => scan.map fun (m, rest) => (.moment m, rest)
      | none =>
        match based? t with
        | some found => .ok found
        | none =>
          match decimal? t with
          | some scan => scan
          | none =>
            match named? namedNumbers t with
            | some found => .ok found
            | none => .error .malformed

end MapScript.Settings.Toml
