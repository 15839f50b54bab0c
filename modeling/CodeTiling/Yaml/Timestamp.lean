import CodeTiling.Number.Decimal

/-!
# Timestamps

Dates and date-times as plain scalars spell them: `2001-12-14`, `2001-12-14 21:59:43.10` and
`2001-12-14T21:59:43.10-05:00`. The year has four digits, the other fields have one or two. A time
with a zone is divided from the date by `T` or `t`, a time without one by blanks.

A point in time keeps the zone that it was written in. `Timestamp.same` and `Timestamp.le` compare
points in time as keys of a map.
-/

namespace CodeTiling.Yaml

/-- The zone of a time. -/
inductive Zone where
  /-- Universal time. -/
  | universal
  /-- A distance from universal time in minutes. -/
  | offset (minutes : Int)
deriving DecidableEq, Repr

namespace Zone

/-- The distance from universal time in minutes. -/
def minutes : Zone → Int
  | universal => 0
  | offset m => m

/-- Whether two times in these zones can be one key. Zones at a distance are the same only when it
is one of those in use, in whole hours. -/
def same : Zone → Zone → Bool
  | universal, universal => true
  | offset a, offset b => a = b && a % 60 = 0 && -720 ≤ a && a ≤ 840
  | _, _ => false

/-- An order on zones: universal time, then by the distance, with none first. -/
def le : Zone → Zone → Bool
  | universal, _ => true
  | offset _, universal => false
  | offset a, offset b => a = 0 || (b ≠ 0 && a ≤ b)

end Zone

/-- A point in time as it was written. -/
structure Timestamp where
  /-- The year. -/
  year : Nat
  /-- The month, from 1. -/
  month : Nat
  /-- The day of the month, from 1. -/
  day : Nat
  /-- The hour. -/
  hour : Nat := 0
  /-- The minute. -/
  minute : Nat := 0
  /-- The second. -/
  second : Nat := 0
  /-- The nanosecond. -/
  nano : Nat := 0
  /-- The zone. -/
  zone : Zone := .universal
deriving DecidableEq, Repr

namespace Timestamp

/-! ### Reading -/

/-- A number of one or two digits. -/
def takeField : List Char → Option (Nat × List Char)
  | a :: b :: cs =>
    if a.isDigit then
      if b.isDigit then some (10 * digitOf a + digitOf b, cs) else some (digitOf a, b :: cs)
    else none
  | [a] => if a.isDigit then some (digitOf a, []) else none
  | [] => none

/-- A number of two digits. -/
def takeTwo : List Char → Option (Nat × List Char)
  | a :: b :: cs => if a.isDigit && b.isDigit then some (10 * digitOf a + digitOf b, cs) else none
  | _ => none

/-- A given character. -/
def takeChar (c : Char) : List Char → Option (List Char)
  | d :: cs => if d = c then some cs else none
  | [] => none

/-- Whether a year is a leap year. -/
def isLeap (year : Nat) : Bool := year % 4 = 0 && (year % 100 ≠ 0 || year % 400 = 0)

/-- The number of days of a month. -/
def daysIn (year month : Nat) : Nat :=
  if month = 2 then (if isLeap year then 29 else 28)
  else if month = 4 ∨ month = 6 ∨ month = 9 ∨ month = 11 then 30
  else 31

/-- The date at the front: a year of four digits, a month and a day, with hyphens. The day is
checked later. -/
def takeDate (cs : List Char) : Option (Timestamp × List Char) := do
  let (high, cs) ← takeTwo cs
  let (low, cs) ← takeTwo cs
  let cs ← takeChar '-' cs
  let (month, cs) ← takeField cs
  let cs ← takeChar '-' cs
  let (day, cs) ← takeField cs
  if 1 ≤ month ∧ month ≤ 12 then return ({ year := 100 * high + low, month, day }, cs) else none

/-- The nanoseconds of the digits after the second; digits after the ninth are dropped. -/
def nanoOf (ds : List Char) : Nat :=
  natOfDigits (ds.take 9) * Nat.pow 10 (9 - (ds.take 9).length)

/-- The fraction of a second at the front, if there is one, after a point or a comma. -/
def takeFraction : List Char → Nat × List Char
  | c :: cs =>
    let ds := cs.takeWhile Char.isDigit
    if (c = '.' ∨ c = ',') ∧ ds ≠ [] then (nanoOf ds, cs.dropWhile Char.isDigit) else (0, c :: cs)
  | [] => (0, [])

/-- The time of day at the front. -/
def takeTime (date : Timestamp) (cs : List Char) : Option (Timestamp × List Char) := do
  let (hour, cs) ← takeField cs
  let cs ← takeChar ':' cs
  let (minute, cs) ← takeField cs
  let cs ← takeChar ':' cs
  let (second, cs) ← takeField cs
  let (nano, cs) := takeFraction cs
  if hour < 24 ∧ minute < 60 ∧ second < 60 then
    return ({ date with hour, minute, second, nano }, cs)
  else none

/-- The zone at the front: `Z`, or a sign, hours and minutes of two digits. -/
def takeZone : List Char → Option (Zone × List Char)
  | 'Z' :: cs => some (.universal, cs)
  | c :: cs => do
    let (hours, cs) ← takeTwo cs
    let cs ← takeChar ':' cs
    let (minutes, cs) ← takeTwo cs
    let offset : Int := 60 * hours + minutes
    if hours ≤ 24 ∧ minutes ≤ 60 then
      if c = '+' then some (.offset offset, cs)
      else if c = '-' then some (.offset (-offset), cs)
      else none
    else none
  | [] => none

/-- What follows the date, up to the end. -/
def ofDate? (date : Timestamp) : List Char → Option Timestamp
  | [] => some date
  | c :: cs =>
    if c = 'T' ∨ c = 't' then do
      let (time, cs) ← takeTime date cs
      let (zone, cs) ← takeZone cs
      if cs = [] then some { time with zone } else none
    else if c = ' ' then do
      let (time, cs) ← takeTime date (cs.dropWhile (· = ' '))
      if cs = [] then some time else none
    else none

/-- Read a timestamp. -/
def ofChars? (cs : List Char) : Option Timestamp := do
  let (date, cs) ← takeDate cs
  let time ← ofDate? date cs
  if 1 ≤ time.day ∧ time.day ≤ daysIn time.year time.month then some time else none

/-! ### Writing -/

/-- A number with at least `n` digits. -/
def padded (n k : Nat) : String :=
  let ds := Nat.toDigits 10 k
  String.ofList (List.replicate (n - ds.length) '0' ++ ds)

/-- The fraction of a second without the zeros at its end. -/
def fractionText (nano : Nat) : String :=
  if nano = 0 then ""
  else
    let ds := (padded 9 nano).toList
    String.ofList ('.' :: (ds.reverse.dropWhile (· = '0')).reverse)

/-- A zone as a sign, hours and minutes. -/
def zoneText (offset : Int) : String :=
  (if offset < 0 then "-" else "+") ++ padded 2 (offset.natAbs / 60) ++
    padded 2 (offset.natAbs % 60)

variable (t : Timestamp)

/-- The text of a timestamp. A zone that is not universal time is named by its distance. -/
def text : String :=
  padded 4 t.year ++ "-" ++ padded 2 t.month ++ "-" ++ padded 2 t.day ++ " " ++
    padded 2 t.hour ++ ":" ++ padded 2 t.minute ++ ":" ++ padded 2 t.second ++
    fractionText t.nano ++ " " ++ zoneText t.zone.minutes ++ " " ++
    (if t.zone.minutes = 0 then "UTC" else zoneText t.zone.minutes)

/-! ### Comparing -/

/-- The number of leap years before a year. -/
def leapsBefore (year : Nat) : Nat :=
  (year + 3) / 4 + (year + 399) / 400 - (year + 99) / 100

/-- The number of days in the months of a year before a month. -/
def daysBefore (year month : Nat) : Nat :=
  (List.range (month - 1)).foldr (fun m n => daysIn year (m + 1) + n) 0

/-- The number of seconds from the start of the year 0 in universal time. -/
def seconds : Int :=
  let days := 365 * t.year + leapsBefore t.year + daysBefore t.year t.month + (t.day - 1)
  Int.ofNat (60 * (60 * (24 * days + t.hour) + t.minute) + t.second) - 60 * t.zone.minutes

/-- Whether two points in time are one key: they are the same and in the same zone. -/
def same (u : Timestamp) : Bool :=
  t.nano = u.nano && t.seconds = u.seconds && t.zone.same u.zone

/-- The order of points in time as keys: by the fraction of the second first, then by the second,
then by the zone. -/
def le (u : Timestamp) : Bool :=
  t.nano < u.nano || (t.nano = u.nano &&
    (t.seconds < u.seconds || (t.seconds = u.seconds && t.zone.le u.zone)))

end Timestamp

end CodeTiling.Yaml
