import Widgetry.Date.Instant
import Widgetry.Date.Pattern

/-!
# Dates as text
-/

namespace Widgetry.Date

def monthNames : List String :=
  ["January", "February", "March", "April", "May", "June", "July", "August", "September", "October",
   "November", "December"]

/-- Days of the week from Thursday on, the first day of 1970. -/
def weekdayNames : List String :=
  ["Thursday", "Friday", "Saturday", "Sunday", "Monday", "Tuesday", "Wednesday"]

def firstThree (s : String) : String := String.ofList (s.toList.take 3)

def padded (width n : Nat) : String :=
  let text := toString n
  String.ofList (List.replicate (width - text.length) '0') ++ text

/-- Four digits for the years from 0 to 9999; other years have a sign and at least four digits. -/
def yearText (year : Int) : String :=
  if 0 ≤ year && year ≤ 9999 then padded 4 year.toNat
  else (if year < 0 then "-" else "+") ++ padded 4 year.natAbs

def twelveHour (hour : Nat) : Nat := if hour % 12 = 0 then 12 else hour % 12

def Field.render (i : Instant) : Field → String
  | .yearTwoDigits => padded 2 (i.civil.year % 100).toNat
  | .year => yearText i.civil.year
  | .month => toString i.civil.month
  | .monthTwoDigits => padded 2 i.civil.month
  | .monthShort => firstThree (monthNames.getD (i.civil.month - 1) "")
  | .monthLong => monthNames.getD (i.civil.month - 1) ""
  | .day => toString i.civil.day
  | .dayTwoDigits => padded 2 i.civil.day
  | .weekdayShort => firstThree (weekdayNames.getD (i.days % 7).toNat "")
  | .weekdayLong => weekdayNames.getD (i.days % 7).toNat ""
  | .hour => toString (i.clock / 3600)
  | .hourTwoDigits => padded 2 (i.clock / 3600)
  | .halfHour => toString (twelveHour (i.clock / 3600))
  | .halfHourTwoDigits => padded 2 (twelveHour (i.clock / 3600))
  | .minute => toString (i.clock / 60 % 60)
  | .minuteTwoDigits => padded 2 (i.clock / 60 % 60)
  | .second => toString (i.clock % 60 + if i.leap then 1 else 0)
  | .secondTwoDigits => padded 2 (i.clock % 60 + if i.leap then 1 else 0)
  | .dayHalf => if i.clock / 3600 < 12 then "AM" else "PM"

def Token.render (i : Instant) : Token → String
  | .literal c => c.toString
  | .field f => f.render i

/-! ### Patterns as `strftime` text -/

def Field.strftime : Field → String
  | .yearTwoDigits => "%y"
  | .year => "%Y"
  | .month => "%-m"
  | .monthTwoDigits => "%m"
  | .monthShort => "%b"
  | .monthLong => "%B"
  | .day => "%-d"
  | .dayTwoDigits => "%d"
  | .weekdayShort => "%a"
  | .weekdayLong => "%A"
  | .hour => "%-H"
  | .hourTwoDigits => "%H"
  | .halfHour => "%-I"
  | .halfHourTwoDigits => "%I"
  | .minute => "%-M"
  | .minuteTwoDigits => "%M"
  | .second => "%-S"
  | .secondTwoDigits => "%S"
  | .dayHalf => "%p"

def Token.strftime : Token → List Char
  | .literal c => if c = '%' then ['%', '%'] else [c]
  | .field f => f.strftime.toList

def Pattern.strftime (p : Pattern) : String := String.ofList (p.flatMap Token.strftime)

/-- The field that a letter stands for, after a percent sign or, `bare`, after one with a minus. -/
def specifier? (bare : Bool) (c : Char) : Option Field :=
  match bare, c with
  | true, 'm' => some .month
  | true, 'd' => some .day
  | true, 'H' => some .hour
  | true, 'I' => some .halfHour
  | true, 'M' => some .minute
  | true, 'S' => some .second
  | false, 'y' => some .yearTwoDigits
  | false, 'Y' => some .year
  | false, 'm' => some .monthTwoDigits
  | false, 'b' => some .monthShort
  | false, 'B' => some .monthLong
  | false, 'd' => some .dayTwoDigits
  | false, 'a' => some .weekdayShort
  | false, 'A' => some .weekdayLong
  | false, 'H' => some .hourTwoDigits
  | false, 'I' => some .halfHourTwoDigits
  | false, 'M' => some .minuteTwoDigits
  | false, 'S' => some .secondTwoDigits
  | false, 'p' => some .dayHalf
  | _, _ => none

/-- Reads `strftime` text; a percent sign that starts no known field stands for itself. -/
def readStrftime : List Char → Pattern
  | [] => []
  | '%' :: '%' :: cs => .literal '%' :: readStrftime cs
  | '%' :: '-' :: c :: cs =>
      match specifier? true c with
      | some f => .field f :: readStrftime cs
      | none => .literal '%' :: readStrftime ('-' :: c :: cs)
  | '%' :: c :: cs =>
      match specifier? false c with
      | some f => .field f :: readStrftime cs
      | none => .literal '%' :: readStrftime (c :: cs)
  | c :: cs => .literal c :: readStrftime cs

def format (text : String) (i : Instant) : String :=
  String.join ((readStrftime text.toList).map (Token.render i))

def Pattern.render (p : Pattern) (i : Instant) : String := format p.strftime i

end Widgetry.Date
