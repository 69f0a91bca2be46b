import Widgetry.Decimal.Binary

/-!
# Shortest decimal digits

A decimal reads back as a given float when it lies in the interval of reals that round to it. Among
the decimals of fewest digits in that interval the nearest to the float is taken.
-/

namespace Widgetry.Decimal

inductive Tie where
  | up
  | even
deriving DecidableEq, Repr

/-- The number `significand * 10 ^ exponent`. -/
structure Digits where
  significand : Nat
  exponent : Int
deriving DecidableEq, Repr

/-- A positive binary number and its rounding interval over one common denominator. -/
structure Interval where
  value : Nat
  low : Nat
  high : Nat
  unit : Nat
  closed : Bool
deriving Repr

namespace Interval

/-- The interval of reals rounding to `m * 2 ^ q`: half a step on both sides, a quarter step below a
power of two; its ends belong to it when `m` is even. -/
def ofBinary (m : Nat) (q : Int) : Interval :=
  let below := if m = 1 <<< 52 ∧ q ≠ -1074 then 1 else 2
  let closed := m % 2 == 0
  match q with
  | .ofNat k => ⟨(4 * m) <<< k, (4 * m - below) <<< k, (4 * m + 2) <<< k, 4, closed⟩
  | .negSucc k => ⟨4 * m, 4 * m - below, 4 * m + 2, 4 <<< (k + 1), closed⟩

def contains (i : Interval) (n d : Nat) : Bool :=
  if i.closed then i.low * d ≤ n * i.unit && n * i.unit ≤ i.high * d
  else i.low * d < n * i.unit && n * i.unit < i.high * d

/-- The multiple of `10 ^ e` in the interval nearest to its value, if there is one. -/
def onGrid (tie : Tie) (i : Interval) (e : Int) : Option Nat :=
  let (up, down) := match e with
    | .ofNat k => (Nat.pow 10 k, 1)
    | .negSucc k => (1, Nat.pow 10 (k + 1))
  let a := i.value * down / (i.unit * up)
  let hitsLow := i.contains (a * up) down && a != 0
  let hitsHigh := i.contains ((a + 1) * up) down
  let twice := 2 * i.value * down
  let middle := (2 * a + 1) * up * i.unit
  match hitsLow, hitsHigh with
  | true, true =>
      if twice < middle then some a
      else if middle < twice then some (a + 1)
      else match tie with
        | .up => some (a + 1)
        | .even => some (if a % 2 = 0 then a else a + 1)
  | true, false => some a
  | false, true => some (a + 1)
  | false, false => none

/-- Tries grids `10 ^ e`, `10 ^ (e - 1)`, … and takes the first that has a hit. -/
def search (tie : Tie) (i : Interval) : Nat → Int → Digits
  | 0, e => ⟨0, e⟩
  | steps + 1, e =>
      match i.onGrid tie e with
      | some n => ⟨n, e⟩
      | none => search tie i steps (e - 1)

end Interval

/-- Number of decimal digits of a positive number; `0` has none. -/
def digitCount (n : Nat) : Nat :=
  if n = 0 then 0 else (Nat.toDigits 10 n).length

/-- Least `e` with `n / d < 10 ^ e`, up to one. -/
def magnitude (n d : Nat) : Int :=
  Int.ofNat (digitCount n) - Int.ofNat (digitCount d) + 1

/-- Fewest digits that read back as `m * 2 ^ q` for positive `m`. -/
def shortest (tie : Tie) (m : Nat) (q : Int) : Digits :=
  let i := Interval.ofBinary m q
  i.search tie 25 (magnitude i.value i.unit)

end Widgetry.Decimal
