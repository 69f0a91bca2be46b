import Widgetry.Decimal.Notation

/-!
# Fixed decimal places

The exact binary value is rounded to a given number of places; a half goes to the even neighbour.
-/

namespace Widgetry.Decimal

/-- `n / d` rounded to an integer, halves to even. -/
def divideEven (n d : Nat) : Nat :=
  let a := n / d
  let r := n % d
  if 2 * r < d then a else if d < 2 * r then a + 1 else a + a % 2

def scaled (places m : Nat) : Int → Nat
  | .ofNat k => m <<< k * Nat.pow 10 places
  | .negSucc k => divideEven (m * Nat.pow 10 places) (1 <<< (k + 1))

def placed (places n : Nat) : String :=
  let text := toString n
  let padded := zeros (places + 1 - text.length) ++ text
  if places = 0 then padded else placePoint false padded (-(Int.ofNat places))

def fixed (places : Nat) (x : Float) : String :=
  match Binary.ofFloat x with
  | .nan => "NaN"
  | .infinite negative => if negative then "-inf" else "inf"
  | .finite negative m q => (if negative then "-" else "") ++ placed places (scaled places m q)

end Widgetry.Decimal
