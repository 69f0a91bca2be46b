import Widgetry.Text.Basic

/-!
# Date patterns

A pattern is a sequence of fields, each a run of one letter, and literal characters. Letters stand
for themselves between single quotes, and a doubled quote is a quote.
-/

namespace Widgetry.Date

inductive Field where
  | yearTwoDigits
  | year
  | month
  | monthTwoDigits
  | monthShort
  | monthLong
  | day
  | dayTwoDigits
  | weekdayShort
  | weekdayLong
  | hour
  | hourTwoDigits
  | halfHour
  | halfHourTwoDigits
  | minute
  | minuteTwoDigits
  | second
  | secondTwoDigits
  | dayHalf
deriving DecidableEq, Repr

inductive Token where
  | literal (c : Char)
  | field (f : Field)
deriving DecidableEq, Repr

abbrev Pattern := List Token

inductive PatternError where
  | unterminatedQuote
  | unsupportedField (letters : String)
  | unquoted (c : Char)
deriving DecidableEq, Repr

def PatternError.message : PatternError → String
  | .unterminatedQuote => "unterminated quote in date pattern"
  | .unsupportedField letters => "unsupported date field '" ++ letters ++ "'"
  | .unquoted c => "'" ++ c.toString ++ "' must be quoted in a date pattern"

def field? (letter : Char) (count : Nat) : Option Field :=
  match letter, count with
  | 'y', 2 => some .yearTwoDigits
  | 'y', 4 => some .year
  | 'M', 1 => some .month
  | 'M', 2 => some .monthTwoDigits
  | 'M', 3 => some .monthShort
  | 'M', 4 => some .monthLong
  | 'd', 1 => some .day
  | 'd', 2 => some .dayTwoDigits
  | 'E', 1 => some .weekdayShort
  | 'E', 2 => some .weekdayShort
  | 'E', 3 => some .weekdayShort
  | 'E', 4 => some .weekdayLong
  | 'H', 1 => some .hour
  | 'H', 2 => some .hourTwoDigits
  | 'h', 1 => some .halfHour
  | 'h', 2 => some .halfHourTwoDigits
  | 'm', 1 => some .minute
  | 'm', 2 => some .minuteTwoDigits
  | 's', 1 => some .second
  | 's', 2 => some .secondTwoDigits
  | 'a', 1 => some .dayHalf
  | _, _ => none

/-- Characters that only quotes make literal. -/
def isReserved (c : Char) : Bool :=
  c == '[' || c == ']' || c == '\x7b' || c == '\x7d' || c == '#'

/-- Where a reader of a pattern stands: inside quotes, or outside with the run of a letter that is
being counted. -/
inductive Mode where
  | quoted
  | plain
  | run (letter : Char) (count : Nat)
deriving DecidableEq, Repr

def Mode.flush : Mode → Except PatternError (List Token)
  | .run letter count =>
      match field? letter count with
      | some f => .ok [.field f]
      | none => .error (.unsupportedField (String.ofList (List.replicate count letter)))
  | _ => .ok []

def readFrom : Mode → List Char → Except PatternError Pattern
  | .quoted, [] => .error .unterminatedQuote
  | mode, [] => mode.flush
  | .quoted, '\'' :: '\'' :: cs => (readFrom .quoted cs).map (.literal '\'' :: ·)
  | .quoted, '\'' :: cs => readFrom .plain cs
  | .quoted, c :: cs => (readFrom .quoted cs).map (.literal c :: ·)
  | mode, '\'' :: '\'' :: cs => do
      let done ← mode.flush
      let rest ← readFrom .plain cs
      return done ++ .literal '\'' :: rest
  | mode, '\'' :: cs => do
      let done ← mode.flush
      let rest ← readFrom .quoted cs
      return done ++ rest
  | mode, c :: cs =>
      if Text.isAsciiLetter c then
        match mode with
        | .run letter count =>
            if c = letter then readFrom (.run letter (count + 1)) cs
            else do
              let done ← mode.flush
              let rest ← readFrom (.run c 1) cs
              return done ++ rest
        | _ => readFrom (.run c 1) cs
      else do
        let done ← mode.flush
        if isReserved c then throw (.unquoted c)
        let rest ← readFrom .plain cs
        return done ++ .literal c :: rest

def Pattern.parse (s : String) : Except PatternError Pattern := readFrom .plain s.toList

end Widgetry.Date
