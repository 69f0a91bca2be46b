import Widgetry.Decimal.Binary
import Widgetry.Decimal.Reading

/-!
# Instants in universal time

An instant is a count of seconds from the start of 1970, from a count of milliseconds or from a text
with date, time and offset. A leap second counts as the second before it and is marked.
-/

namespace Widgetry.Date

structure Instant where
  seconds : Int
  leap : Bool
deriving DecidableEq, Repr

structure Civil where
  year : Int
  month : Nat
  day : Nat
deriving DecidableEq, Repr

/-- The day of the calendar that lies `days` after 1970-01-01. Years start in March here, so that a
leap day is the last of its year. -/
def Civil.ofDays (days : Int) : Civil :=
  let z := days + 719468
  let era := z.fdiv 146097
  let doe := (z - era * 146097).toNat
  let yoe := (doe - doe / 1460 + doe / 36524 - doe / 146096) / 365
  let doy := doe - (365 * yoe + yoe / 4 - yoe / 100)
  let mp := (5 * doy + 2) / 153
  let day := doy - (153 * mp + 2) / 5 + 1
  let month := if mp < 10 then mp + 3 else mp - 9
  let year := Int.ofNat yoe + era * 400 + (if month ≤ 2 then 1 else 0)
  ⟨year, month, day⟩

def Civil.toDays (c : Civil) : Int :=
  let y := if c.month ≤ 2 then c.year - 1 else c.year
  let era := y.fdiv 400
  let yoe := (y - era * 400).toNat
  let mp := if c.month > 2 then c.month - 3 else c.month + 9
  let doy := (153 * mp + 2) / 5 + c.day - 1
  let doe := yoe * 365 + yoe / 4 - yoe / 100 + doy
  era * 146097 + Int.ofNat doe - 719468

def isLeapYear (year : Int) : Bool :=
  year % 4 == 0 && (year % 100 != 0 || year % 400 == 0)

def daysInMonth (year : Int) (month : Nat) : Nat :=
  if month = 2 then (if isLeapYear year then 29 else 28)
  else if month = 4 ∨ month = 6 ∨ month = 9 ∨ month = 11 then 30
  else 31

namespace Instant

def days (i : Instant) : Int := i.seconds.fdiv 86400

def clock (i : Instant) : Nat := (i.seconds.fmod 86400).toNat

def civil (i : Instant) : Civil := Civil.ofDays i.days

def yearInRange (year : Int) : Bool := -262143 ≤ year && year ≤ 262142

/-- The instant of a number of milliseconds, its fraction dropped. -/
def ofMillis? (ms : Float) : Option Instant :=
  if ms.isFinite && ms.abs ≤ 8.64e15 then
    let i : Instant := ⟨(Decimal.toInt64 ms).fdiv 1000, false⟩
    if yearInRange i.civil.year then some i else none
  else none

def takeDigits (count : Nat) (cs : List Char) : Option (Nat × List Char) :=
  let digits := cs.take count
  if digits.length = count && digits.all Char.isDigit then
    some (Decimal.valueOf 0 digits, cs.drop count)
  else none

def takeChar (c : Char) : List Char → Option (List Char)
  | d :: cs => if d = c then some cs else none
  | [] => none

def takeDivider : List Char → Option (List Char)
  | c :: cs => if c = 'T' ∨ c = 't' ∨ c = ' ' then some cs else none
  | [] => none

/-- Drops a fraction of a second; a point needs at least one digit after it. -/
def dropFraction : List Char → Option (List Char)
  | '.' :: cs =>
      match cs with
      | d :: _ => if d.isDigit then some (cs.dropWhile Char.isDigit) else none
      | [] => none
  | cs => some cs

/-- Takes an offset in seconds: `Z`, or hours and minutes with a sign and a colon. -/
def takeOffset : List Char → Option (Int × List Char)
  | [] => none
  | c :: cs =>
      if c = 'Z' ∨ c = 'z' then some (0, cs)
      else if c = '+' ∨ c = '-' ∨ c = '−' then do
        let (hours, cs) ← takeDigits 2 cs
        let cs ← takeChar ':' cs
        let (minutes, cs) ← takeDigits 2 cs
        if hours ≤ 23 ∧ minutes ≤ 59 then
          let size := Int.ofNat (hours * 3600 + minutes * 60)
          return (if c = '+' then size else -size, cs)
        else none
      else none

/-- Reads a date, a time and an offset; nothing may follow. -/
def parse? (s : String) : Option Instant := do
  let (year, cs) ← takeDigits 4 s.toList
  let cs ← takeChar '-' cs
  let (month, cs) ← takeDigits 2 cs
  let cs ← takeChar '-' cs
  let (day, cs) ← takeDigits 2 cs
  let cs ← takeDivider cs
  let (hour, cs) ← takeDigits 2 cs
  let cs ← takeChar ':' cs
  let (minute, cs) ← takeDigits 2 cs
  let cs ← takeChar ':' cs
  let (second, cs) ← takeDigits 2 cs
  let cs ← dropFraction cs
  let (offset, cs) ← takeOffset cs
  if !cs.isEmpty then none
  else if month < 1 ∨ 12 < month ∨ day < 1 ∨ daysInMonth year month < day then none
  else if 23 < hour ∨ 59 < minute ∨ 60 < second then none
  else
    let leap := second == 60
    let clock := hour * 3600 + minute * 60 + (if leap then 59 else second)
    return ⟨(Civil.toDays ⟨year, month, day⟩) * 86400 + clock - offset, leap⟩

end Instant

end Widgetry.Date
