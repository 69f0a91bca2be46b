import Widgetry.Decimal.Shortest

/-!
# Decimal notation

One printer of shortest digits with a record of its choices: from where on an exponent is written,
whether a whole number keeps `.0`, and how an exponent looks.
-/

namespace Widgetry.Decimal

/-- How a number is written. A number whose first digit has weight `10 ^ w` is positional for
`least ≤ w < beyond`; without bounds it always is. -/
structure Style where
  tie : Tie
  positional : Option (Int × Int)
  keepPoint : Bool
  plusExponent : Bool
deriving Repr

/-- Plain digits, never an exponent. -/
def Style.plain : Style := ⟨.up, none, false, false⟩

/-- Diagnostic form: at least one decimal place, exponents below `1e-4` and from `1e16` on. -/
def Style.diagnostic : Style := ⟨.up, some (-4, 16), true, false⟩

/-- Document form: like the diagnostic form, with exponents below `1e-5` and an explicit plus. -/
def Style.document : Style := ⟨.even, some (-5, 16), true, true⟩

def zeros (n : Nat) : String := String.ofList (List.replicate n '0')

def placePoint (keepPoint : Bool) (text : String) (exponent : Int) : String :=
  match exponent with
  | .ofNat k => text ++ zeros k ++ (if keepPoint then ".0" else "")
  | .negSucc k =>
      let places := k + 1
      let n := text.length
      if places < n then
        let cs := text.toList
        String.ofList (cs.take (n - places)) ++ "." ++ String.ofList (cs.drop (n - places))
      else "0." ++ zeros (places - n) ++ text

/-- Text of digits with an exponent mark after the first digit and its fraction. -/
def withExponent (plus : Bool) (text : String) (weight : Int) : String :=
  let cs := text.toList
  let fraction := String.ofList (cs.drop 1)
  let mark := if plus && weight ≥ 0 then "e+" else "e"
  String.ofList (cs.take 1) ++ (if fraction.isEmpty then "" else "." ++ fraction)
    ++ mark ++ toString weight

def Digits.render (style : Style) (d : Digits) : String :=
  let text := toString d.significand
  let weight := d.exponent + Int.ofNat text.length - 1
  match style.positional with
  | some (least, beyond) =>
      if least ≤ weight && weight < beyond then placePoint style.keepPoint text d.exponent
      else withExponent style.plusExponent text weight
  | none => placePoint style.keepPoint text d.exponent

def render (style : Style) (x : Float) : String :=
  match Binary.ofFloat x with
  | .nan => "NaN"
  | .infinite negative => if negative then "-inf" else "inf"
  | .finite negative m q =>
      let size := if m = 0 then ⟨0, 0⟩ else shortest style.tie m q
      (if negative then "-" else "") ++ size.render style

end Widgetry.Decimal
