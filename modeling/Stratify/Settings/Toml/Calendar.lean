import Stratify.Settings.Toml.Character

/-!
# Dates and times of day

Dates are written as a year of four digits, a month and a day, and times of day as hours, minutes
and seconds of two digits each. Reading takes the digits as they stand. Whether the calendar has
such a day, and the day such a time, is asked apart.
-/

namespace Stratify.Toml

structure Date where
  year : Nat
  month : Nat
  day : Nat
deriving DecidableEq, Repr

/-- A time of day, up to the fraction of a second. -/
structure TimeOfDay where
  hour : Nat
  minute : Nat
  second : Nat
deriving DecidableEq, Repr

/-- How far a time of day is from universal time, on either side. -/
structure Offset where
  hour : Nat
  minute : Nat
deriving DecidableEq, Repr

/-! ### The calendar -/

/-- Every fourth year is a leap year, but of the years that end a century only every fourth. -/
def isLeapYear (year : Nat) : Bool :=
  year % 4 == 0 && (year % 100 != 0 || year % 400 == 0)

def daysInMonth (year month : Nat) : Nat :=
  if month = 2 then if isLeapYear year then 29 else 28
  else if month = 4 ∨ month = 6 ∨ month = 9 ∨ month = 11 then 30
  else 31

def Date.isValid (d : Date) : Bool :=
  decide (1 ≤ d.month) && decide (d.month ≤ 12) && decide (1 ≤ d.day) &&
    decide (d.day ≤ daysInMonth d.year d.month)

def TimeOfDay.isValid (t : TimeOfDay) : Bool :=
  decide (t.hour < 24) && decide (t.minute < 60) && decide (t.second < 60)

/-- A full day and a full hour are still allowed. -/
def Offset.isValid (o : Offset) : Bool :=
  decide (o.hour ≤ 24) && decide (o.minute ≤ 60)

/-! ### Reading -/

def twoDigits : List Char → Option (Nat × List Char)
  | a :: b :: rest =>
    if a.isDigit && b.isDigit then some (digitsValue 10 [a, b], rest) else none
  | _ => none

def expect (c : Char) : List Char → Option (List Char)
  | d :: rest => if d = c then some rest else none
  | [] => none

def date (cs : List Char) : Option (Date × List Char) := do
  let (century, cs) ← twoDigits cs
  let (year, cs) ← twoDigits cs
  let cs ← expect '-' cs
  let (month, cs) ← twoDigits cs
  let cs ← expect '-' cs
  let (day, cs) ← twoDigits cs
  return (⟨100 * century + year, month, day⟩, cs)

def dropFraction : List Char → Option (List Char)
  | '.' :: c :: rest => if c.isDigit then some (rest.dropWhile Char.isDigit) else none
  | ['.'] => none
  | cs => some cs

def timeOfDay (cs : List Char) : Option (TimeOfDay × List Char) := do
  let (hour, cs) ← twoDigits cs
  let cs ← expect ':' cs
  let (minute, cs) ← twoDigits cs
  let cs ← expect ':' cs
  let (second, cs) ← twoDigits cs
  let cs ← dropFraction cs
  return (⟨hour, minute, second⟩, cs)

/-- An offset is the letter of universal time itself, or hours and minutes after a sign. It may be
missing. -/
def offset? : List Char → Option (Option Offset × List Char)
  | [] => some (none, [])
  | c :: cs =>
    if c = 'Z' then some (some ⟨0, 0⟩, cs)
    else if c = '+' || c = '-' then do
      let (hour, cs) ← twoDigits cs
      let cs ← expect ':' cs
      let (minute, cs) ← twoDigits cs
      return (some ⟨hour, minute⟩, cs)
    else some (none, c :: cs)

/-- Times of day have a colon after two digits. -/
def startsTime : List Char → Bool
  | a :: b :: c :: _ => a.isDigit && b.isDigit && c == ':'
  | _ => false

/-- Dates have a hyphen after four digits. -/
def startsDate : List Char → Bool
  | a :: b :: c :: d :: e :: _ => [a, b, c, d].all Char.isDigit && e == '-'
  | _ => false

end Stratify.Toml
