/-!
# Binary floating-point numbers as exact quantities

A finite `Float` is `m * 2 ^ q` with natural `m`. Rounding, truncation and remainder are computed
on `m` and `q` in exact integer arithmetic, so each of them is a rule about integers.
-/

namespace Widgetry.Decimal

/-- What the bits of a `Float` stand for; `finite` is `± mantissa * 2 ^ exponent`. -/
inductive Binary where
  | nan
  | infinite (negative : Bool)
  | finite (negative : Bool) (mantissa : Nat) (exponent : Int)
deriving DecidableEq, Repr

namespace Binary

/-- Reads sign, exponent and fraction fields of the 64-bit format. -/
def ofBits (bits : Nat) : Binary :=
  let negative := bits >>> 63 % 2 == 1
  let field := bits >>> 52 % 2048
  let fraction := bits % (1 <<< 52)
  if field = 2047 then
    if fraction = 0 then .infinite negative else .nan
  else if field = 0 then .finite negative fraction (-1074)
  else .finite negative (1 <<< 52 + fraction) (Int.ofNat field - 1075)

def ofFloat (x : Float) : Binary := ofBits x.toBits.toNat

/-- The `Float` nearest to `± mantissa * 2 ^ exponent`. -/
def toFloat (negative : Bool) (mantissa : Nat) (exponent : Int) : Float :=
  let size :=
    match exponent with
    | .ofNat k => Float.ofNat (mantissa <<< k)
    | .negSucc k => Float.ofScientific (mantissa * Nat.pow 5 (k + 1)) true (k + 1)
  if negative then -size else size

end Binary

def isNegative (x : Float) : Bool :=
  x.toBits.toNat >>> 63 % 2 == 1

def wholePart (mantissa : Nat) : Int → Nat
  | .ofNat k => mantissa <<< k
  | .negSucc k => mantissa >>> (k + 1)

/-- `mantissa * 2 ^ exponent` rounded to an integer, halves away from zero. -/
def nearestWhole (mantissa : Nat) : Int → Nat
  | .ofNat k => mantissa <<< k
  | .negSucc k => (2 * mantissa + 1 <<< (k + 1)) >>> (k + 2)

def isWhole (x : Float) : Bool :=
  match Binary.ofFloat x with
  | .finite _ m (.negSucc k) => m % (1 <<< (k + 1)) == 0
  | .finite _ _ (.ofNat _) => true
  | _ => false

/-- Nearest integer with halves away from zero; the sign survives, also on zero. -/
def round (x : Float) : Float :=
  match Binary.ofFloat x with
  | .finite negative m q => Binary.toFloat negative (nearestWhole m q) 0
  | _ => x

/-- Integer part clamped to `lo ≤ · ≤ hi`; not a number counts as zero. -/
def truncate (lo hi : Int) (x : Float) : Int :=
  match Binary.ofFloat x with
  | .nan => 0
  | .infinite negative => if negative then lo else hi
  | .finite negative m q =>
      let n := Int.ofNat (wholePart m q)
      max lo (min hi (if negative then -n else n))

/-- Integer part as a signed 64-bit integer, saturating. -/
def toInt64 : Float → Int :=
  truncate Int64.minValue.toInt Int64.maxValue.toInt

def toNat64 (x : Float) : Nat :=
  (truncate 0 (Int.ofNat UInt64.size - 1) x).toNat

/-- Remainder of truncating division; it has the sign of the dividend. -/
def remainder (x y : Float) : Float :=
  match Binary.ofFloat x, Binary.ofFloat y with
  | .finite _ _ _, .infinite _ => x
  | .finite negative mx qx, .finite _ my qy =>
      if my = 0 then 0.0 / 0.0
      else
        let q := min qx qy
        let a := mx <<< (qx - q).toNat
        let b := my <<< (qy - q).toNat
        Binary.toFloat negative (a % b) q
  | _, _ => 0.0 / 0.0

def clamp (lo hi x : Float) : Float :=
  if x < lo then lo else if hi < x then hi else x

/-- Key of the total order on bit patterns: `-NaN < -inf < … < -0 < 0 < … < inf < NaN`. -/
def totalKey (x : Float) : Int :=
  let bits := x.toBits.toNat
  if bits < 1 <<< 63 then Int.ofNat bits else -(Int.ofNat (bits - 1 <<< 63)) - 1

end Widgetry.Decimal
