import MapScript.Text.Basic

/-!
# Dates and times

Days of the calendar, times of the day and both together, with the distance from
universal time or without.  Each has a plain text, with the largest unit first,
and the text of the expression that makes it.
-/

namespace MapScript.Settings

/-- The decimal numeral of a number, filled with zeros to a width. -/
def padded (width n : Nat) : Text :=
  let digits := Text.ofNat n
  Text.fill (width - digits.length) '0' ++ digits

/-- A day of the calendar. -/
structure Date where
  year : Nat
  month : Nat
  day : Nat
deriving DecidableEq, Repr

namespace Date

/-- Whether a year has a day more. -/
def isLeap (year : Nat) : Bool := year % 4 == 0 && (year % 100 != 0 || year % 400 == 0)

/-- The number of days in a month. -/
def daysIn (year month : Nat) : Nat :=
  if month == 2 then (if isLeap year then 29 else 28)
  else if [4, 6, 9, 11].contains month then 30
  else 31

/-- Whether the calendar has such a day. -/
def isValid (d : Date) : Bool :=
  1 ≤ d.year && 1 ≤ d.month && d.month ≤ 12 && 1 ≤ d.day && d.day ≤ daysIn d.year d.month

/-- The date as text. -/
def display (d : Date) : Text :=
  padded 4 d.year ++ '-' :: padded 2 d.month ++ '-' :: padded 2 d.day

/-- The numbers of the date, the year first. -/
def numbers (d : Date) : List Nat := [d.year, d.month, d.day]

end Date

/-- A time of the day. -/
structure Clock where
  hour : Nat
  minute : Nat
  second : Nat
  micro : Nat
deriving DecidableEq, Repr

namespace Clock

/-- The time as text, with a fraction only if there is one. -/
def display (c : Clock) : Text :=
  padded 2 c.hour ++ ':' :: padded 2 c.minute ++ ':' :: padded 2 c.second ++
    if c.micro = 0 then [] else '.' :: padded 6 c.micro

/-- The numbers of the time, the hour first; zeros after the minute that nothing
follows are left out. -/
def numbers (c : Clock) : List Nat :=
  [c.hour, c.minute] ++
    if c.micro = 0 then (if c.second = 0 then [] else [c.second]) else [c.second, c.micro]

end Clock

/-- A date, a time, or both with the minutes ahead of universal time, if known. -/
inductive Moment where
  | date (date : Date)
  | time (clock : Clock)
  | both (date : Date) (clock : Clock) (offset : Option Int)
deriving DecidableEq, Repr

namespace Moment

/-- A distance from universal time as text. -/
def offsetText (minutes : Int) : Text :=
  (if minutes < 0 then '-' else '+') :: padded 2 (minutes.natAbs / 60) ++
    ':' :: padded 2 (minutes.natAbs % 60)

/-- The moment as text. -/
def display : Moment → Text
  | date d => d.display
  | time c => c.display
  | both d c offset =>
    d.display ++ ' ' :: c.display ++ (offset.map offsetText).getD []

/-- Numbers with commas between them. -/
def listed (ns : List Nat) : Text := Text.join ", ".toList (ns.map Text.ofNat)

/-- The expression that makes a distance from universal time: whole days, then
seconds. -/
def offsetWritten (minutes : Int) : Text :=
  if minutes = 0 then "datetime.timezone.utc".toList
  else
    let days := if minutes < 0 then "days=-1, ".toList else []
    let seconds := (if minutes < 0 then 1440 + minutes else minutes).natAbs * 60
    "datetime.timezone(datetime.timedelta(".toList ++ days ++ "seconds=".toList ++
      Text.ofNat seconds ++ "))".toList

/-- The expression that makes a moment. -/
def written : Moment → Text
  | date d => "datetime.date(".toList ++ listed d.numbers ++ [')']
  | time c => "datetime.time(".toList ++ listed c.numbers ++ [')']
  | both d c offset =>
    "datetime.datetime(".toList ++ listed (d.numbers ++ c.numbers) ++
      (offset.map fun o => ", tzinfo=".toList ++ offsetWritten o).getD [] ++ [')']

end Moment

end MapScript.Settings
