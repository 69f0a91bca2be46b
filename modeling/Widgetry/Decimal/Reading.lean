import Widgetry.Decimal.Shortest

/-!
# Reading decimal text

A number is an optional sign and either digits with an optional point and exponent, or one of the
words `inf`, `infinity` and `nan` in any letter case.
-/

namespace Widgetry.Decimal

def digitValue (c : Char) : Nat := c.toNat - '0'.toNat

/-- Value of a digit sequence continuing `start`. -/
def valueOf (start : Nat) (cs : List Char) : Nat :=
  cs.foldl (fun n c => 10 * n + digitValue c) start

/-- The float nearest to `significand * 10 ^ exponent`; exponents far out of range are decided by
the digit count, so no large power is ever formed. -/
def nearest (significand : Nat) (exponent : Int) : Float :=
  let weight := Int.ofNat (digitCount significand) + exponent
  if significand = 0 then 0.0
  else if weight > 310 then 1.0 / 0.0
  else if weight < -330 then 0.0
  else match exponent with
    | .ofNat k => Float.ofScientific significand false k
    | .negSucc k => Float.ofScientific significand true (k + 1)

def splitSign : List Char → Bool × List Char
  | '+' :: cs => (false, cs)
  | '-' :: cs => (true, cs)
  | cs => (false, cs)

/-- Exponent part: nothing, or `e` with an optional sign and at least one digit. -/
def readExponent : List Char → Option Int
  | [] => some 0
  | c :: cs =>
      if c = 'e' ∨ c = 'E' then
        let (negative, ds) := splitSign cs
        if ds.isEmpty || !ds.all Char.isDigit then none
        else
          let n := Int.ofNat (valueOf 0 ds)
          some (if negative then -n else n)
      else none

def readUnsigned (cs : List Char) : Option Float :=
  let whole := cs.takeWhile Char.isDigit
  let rest := cs.dropWhile Char.isDigit
  let (fraction, rest) := match rest with
    | '.' :: tail => (tail.takeWhile Char.isDigit, tail.dropWhile Char.isDigit)
    | _ => ([], rest)
  if whole.isEmpty && fraction.isEmpty then none
  else (readExponent rest).map fun e =>
    nearest (valueOf (valueOf 0 whole) fraction) (e - Int.ofNat fraction.length)

/-- Words for the numbers that have no digits. -/
def readWord (cs : List Char) : Option Float :=
  let word := String.ofList (cs.map Char.toLower)
  if word = "inf" ∨ word = "infinity" then some (1.0 / 0.0)
  else if word = "nan" then some (0.0 / 0.0)
  else none

/-- The float a text denotes, correctly rounded; `none` when the text is no number. -/
def parse? (text : String) : Option Float :=
  let (negative, cs) := splitSign text.toList
  ((readWord cs).or (readUnsigned cs)).map fun x => if negative then -x else x

end Widgetry.Decimal
