import Widgetry.Date.Format
import Widgetry.Decimal.Fixed
import Widgetry.Decimal.Reading
import Widgetry.Expr.Type
import Widgetry.Json.Basic
import Widgetry.Text.Quoted

/-!
# Values of expressions

What an expression evaluates to. Arrays and objects of the data are opaque: they are `composite`.
-/

namespace Widgetry

inductive Value where
  | null
  | number (x : Float)
  | string (s : String)
  | bool (b : Bool)
  | color (c : Color)
  | composite
deriving DecidableEq

/-- Shows a number to a user: whole numbers below `1e15` without a point, zero without a sign. -/
def showNumber (x : Float) : String :=
  if x == 0.0 then "0"
  else if Decimal.isWhole x && x.abs < 1e15 then toString (Decimal.toInt64 x)
  else Decimal.render .plain x

/-- The characters from position `start` on, at most `length` of them. -/
def substring (s : String) (start : Float) (length : Option Float) : String :=
  let cs := s.toList
  let count := Int.ofNat cs.length
  let first := max 0 (min (Decimal.toInt64 start) count)
  let last := match length with
    | some n => min (min (first + max (Decimal.toInt64 n) 0) Int64.maxValue.toInt) count
    | none => count
  String.ofList ((cs.drop first.toNat).take (last - first).toNat)

/-- A number rounded to at most six places, halves away from zero, with its unit. -/
def formatNumber (x : Float) (unit : String) (decimals : Nat) : String :=
  let d := min decimals 6
  let f := Float.ofNat (Nat.pow 10 d)
  let r := Decimal.round (x * f) / f
  let r := if r == 0.0 then 0.0 else r
  Decimal.fixed d r ++ unit

namespace Value

def ofJson : Json → Value
  | .null => .null
  | .bool b => .bool b
  | .number n => .number n.toFloat
  | .string s => .string s
  | .array _ => .composite
  | .object _ => .composite

def ofLiteral : Literal → Value
  | .number x => .number x
  | .string s => .string s
  | .bool b => .bool b
  | .color c => .color c

def isPresent : Value → Bool
  | .null => false
  | _ => true

/-- Text of a value; null and composites have none. -/
def display : Value → String
  | .null => ""
  | .composite => ""
  | .number x => showNumber x
  | .string s => s
  | .bool b => if b then "true" else "false"
  | .color c => c.toHex

def truthy : Value → Bool
  | .null => false
  | .bool b => b
  | .number x => !(x == 0.0) && !x.isNaN
  | .string s => !s.isEmpty
  | .color _ => true
  | .composite => true

/-- A number, or text that reads as one. -/
def number? : Value → Option Float
  | .number x => some x
  | .string s => Decimal.parse? (Text.trim s)
  | _ => none

def color? : Value → Option Color
  | .color c => some c
  | .string s => Color.parse? s
  | _ => none

/-- Equality of values of one kind; numbers compare as numbers. -/
def same : Value → Value → Bool
  | .null, .null => true
  | .number a, .number b => a == b
  | .string a, .string b => a == b
  | .bool a, .bool b => a == b
  | .color a, .color b => a == b
  | .composite, .composite => true
  | _, _ => false

def compareNumbers (a b : Float) : Option Ordering :=
  if a < b then some .lt
  else if a == b then some .eq
  else if b < a then some .gt
  else none

def compare? : Value → Value → Option Ordering
  | .number a, .number b => compareNumbers a b
  | .string a, .string b => some (compare a b)
  | _, _ => none

def describe : Value → String
  | .null => "Null"
  | .number x => "Number(" ++ Decimal.render .diagnostic x ++ ")"
  | .string s => "String(" ++ Text.quoted s ++ ")"
  | .bool b => "Bool(" ++ (if b then "true" else "false") ++ ")"
  | .color c =>
      "Color(Rgba \x7b r: " ++ toString c.r.toNat ++ ", g: " ++ toString c.g.toNat ++ ", b: "
        ++ toString c.b.toNat ++ ", a: " ++ toString c.a.toNat ++ " \x7d)"
  | .composite => "Composite"

/-- Text of a value as a date in a pattern; what is no instant is displayed as it is. -/
def formatDate (pattern : Date.Pattern) (v : Value) : String :=
  let instant := match v with
    | .number ms => Date.Instant.ofMillis? ms
    | .string s => Date.Instant.parse? s
    | _ => none
  match instant with
  | some i => pattern.render i
  | none => v.display

end Value

end Widgetry
