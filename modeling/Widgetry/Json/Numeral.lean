import Widgetry.Decimal.Reading
import Widgetry.Json.Basic
import Widgetry.Json.Syntax

/-!
# Numbers in JSON text

Digits are gathered into a 64-bit significand; digits beyond it only count towards the exponent. A
number with a fraction or an exponent is the significand scaled once by a power of ten in floating
point.
-/

namespace Widgetry.Json.Numeral

open Widgetry.Decimal (digitValue)

def fitsWord (n : Nat) : Bool := n < UInt64.size

/-- Gathers integer digits; `spilled` counts the digits from the first that does not fit on. -/
def gatherWhole : Nat → Nat → List Char → Nat × Nat
  | significand, spilled, [] => (significand, spilled)
  | significand, spilled, c :: cs =>
      let next := significand * 10 + digitValue c
      if spilled = 0 && fitsWord next then gatherWhole next 0 cs
      else gatherWhole significand (spilled + 1) cs

/-- Gathers fraction digits up to the first that does not fit; counts those gathered. -/
def gatherFraction : Nat → Nat → List Char → Nat × Nat
  | significand, taken, [] => (significand, taken)
  | significand, taken, c :: cs =>
      let next := significand * 10 + digitValue c
      if fitsWord next then gatherFraction next (taken + 1) cs else (significand, taken)

def powerOfTen (k : Nat) : Float := Float.ofScientific 1 false k

/-- Divides by `1e308` until the exponent is in range or nothing is left. -/
def scaleDown : Nat → Float → Nat → Float
  | 0, f, _ => f
  | steps + 1, f, k =>
      if k ≤ 308 then f / powerOfTen k
      else if f == 0.0 then f
      else scaleDown steps (f / powerOfTen 308) (k - 308)

/-- `significand * 10 ^ exponent` by one scaling; `none` when it is out of range. -/
def scale (significand : Nat) (exponent : Int) : Option Float :=
  let f := Float.ofNat significand
  match exponent with
  | .ofNat k =>
      if k ≤ 308 then
        let scaled := f * powerOfTen k
        if scaled.isInf then none else some scaled
      else if f == 0.0 then some f else none
  | .negSucc k => some (scaleDown 5 f (k + 1))

def signed (negative : Bool) (x : Float) : Float := if negative then -x else x

/-- Moves over ASCII characters that are no line feeds. -/
def skipAscii (c : Cursor) (n : Nat) : Cursor :=
  ⟨c.rest.drop n, ⟨c.place.line, c.place.column + n⟩⟩

def finish (negative : Bool) (significand : Nat) (exponent : Int) (c : Cursor) :
    Except SyntaxError (Number × Cursor) :=
  match scale significand exponent with
  | some x => .ok (.float (signed negative x), c)
  | none => .error (c.failHere .numberOutOfRange)

/-- Reads exponent digits; a value beyond 31 bits is noticed at the digit that exceeds it. -/
def exponentDigits : Nat → List Char → Cursor → Except Cursor (Nat × Cursor)
  | value, [], c => .ok (value, c)
  | value, d :: ds, c =>
      let next := value * 10 + digitValue d
      if next < 1 <<< 31 then exponentDigits next ds c.skip else .error c.skip

def readPower (negative : Bool) (significand : Nat) (start : Int) (down : Bool) (c : Cursor) :
    Except SyntaxError (Number × Cursor) :=
  if c.isAtDigit then
    let digits := c.rest.takeWhile Char.isDigit
    match exponentDigits 0 digits c with
    | .ok (value, c) =>
        finish negative significand (if down then start - value else start + value) c
    | .error excess =>
        if significand != 0 && !down then .error (excess.failHere .numberOutOfRange)
        else .ok (.float (signed negative 0.0), skipAscii c digits.length)
  else .error (c.failAt .endInValue .invalidNumber)

/-- Reads an exponent with its sign, if it has one. -/
def readExponent (negative : Bool) (significand : Nat) (start : Int) (c : Cursor) :
    Except SyntaxError (Number × Cursor) :=
  if c.isAt '+' then readPower negative significand start false c.skip
  else if c.isAt '-' then readPower negative significand start true c.skip
  else readPower negative significand start false c

def readTail (negative : Bool) (significand : Nat) (exponent : Int) (c : Cursor) :
    Except SyntaxError (Number × Cursor) :=
  if c.isAt 'e' then readExponent negative significand exponent c.skip
  else if c.isAt 'E' then readExponent negative significand exponent c.skip
  else finish negative significand exponent c

/-- Reads what follows the point; at least one digit has to. -/
def readFraction (negative : Bool) (significand : Nat) (spilled : Nat) (c : Cursor) :
    Except SyntaxError (Number × Cursor) :=
  if c.isAtDigit then
    let digits := c.rest.takeWhile Char.isDigit
    let (significand, taken) := gatherFraction significand 0 digits
    readTail negative significand (Int.ofNat spilled - Int.ofNat taken)
      (skipAscii c digits.length)
  else .error (c.failAt .endInValue .invalidNumber)

/-- An integer that fits in 64 bits; minus zero and integers below the signed range are floats. -/
def ofInteger (negative : Bool) (n : Nat) : Number :=
  if !negative then .integer (Int.ofNat n)
  else if n = 0 ∨ n > 1 <<< 63 then .float (-(Float.ofNat n))
  else .integer (-(Int.ofNat n))

def readAfterWhole (negative : Bool) (significand spilled : Nat) (c : Cursor) :
    Except SyntaxError (Number × Cursor) :=
  if c.isAt '.' then readFraction negative significand spilled c.skip
  else if c.isAt 'e' then readExponent negative significand spilled c.skip
  else if c.isAt 'E' then readExponent negative significand spilled c.skip
  else if spilled = 0 then .ok (ofInteger negative significand, c)
  else finish negative significand spilled c

def readUnsigned (negative : Bool) (c : Cursor) : Except SyntaxError (Number × Cursor) :=
  if c.isAt '0' then
    if c.skip.isAtDigit then .error (c.skip.failNext .invalidNumber)
    else readAfterWhole negative 0 0 c.skip
  else if c.isAtDigit then
    let digits := c.rest.takeWhile Char.isDigit
    let (significand, spilled) := gatherWhole 0 0 digits
    readAfterWhole negative significand spilled (skipAscii c digits.length)
  else .error (c.failAt .endInValue .invalidNumber)

def read (c : Cursor) : Except SyntaxError (Number × Cursor) :=
  if c.isAt '-' then readUnsigned true c.skip else readUnsigned false c

end Widgetry.Json.Numeral
