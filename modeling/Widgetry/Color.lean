import Widgetry.Decimal.Binary
import Widgetry.Table
import Widgetry.Text.Basic
import Widgetry.Text.Blank

/-!
# Colors

A color has four channels of eight bits. Its text form has six hexadecimal digits when it is opaque
and eight otherwise; reading also takes three digits and a few names.
-/

namespace Widgetry

structure Color where
  r : UInt8
  g : UInt8
  b : UInt8
  a : UInt8
deriving DecidableEq, Repr

namespace Color

def transparent : Color := ⟨0, 0, 0, 0⟩

/-- A channel from a number: rounded and limited to eight bits; not a number is zero. -/
def channel (x : Float) : UInt8 :=
  if x.isNaN then 0
  else UInt8.ofNat (Decimal.truncate 0 255 (Decimal.round (Decimal.clamp 0 255 x))).toNat

/-- A color from channels, the last one between zero and one. -/
def ofChannels (r g b a : Float) : Color :=
  ⟨channel r, channel g, channel b, channel (a * 255.0)⟩

def toHex (c : Color) : String :=
  let rgb := Text.hexUpper 2 c.r.toNat ++ Text.hexUpper 2 c.g.toNat ++ Text.hexUpper 2 c.b.toNat
  if c.a = 255 then "#" ++ rgb else "#" ++ rgb ++ Text.hexUpper 2 c.a.toNat

def argb (c : Color) : Nat :=
  c.a.toNat <<< 24 + c.r.toNat <<< 16 + c.g.toNat <<< 8 + c.b.toNat

def mixChannel (t : Float) (x y : UInt8) : UInt8 :=
  let x := Float.ofNat x.toNat
  let y := Float.ofNat y.toNat
  UInt8.ofNat (Decimal.truncate 0 255 (Decimal.clamp 0 255 (Decimal.round (x + (y - x) * t)))).toNat

/-- The color at a fraction of the way to another one; the fraction is limited to `0 ≤ t ≤ 1`. -/
def mix (c d : Color) (t : Float) : Color :=
  let t := if t.isNaN then 0.0 else Decimal.clamp 0 1 t
  ⟨mixChannel t c.r d.r, mixChannel t c.g d.g, mixChannel t c.b d.b, mixChannel t c.a d.a⟩

def named : List (String × Color) :=
  [("black", ⟨0x00, 0x00, 0x00, 0xFF⟩),
   ("white", ⟨0xFF, 0xFF, 0xFF, 0xFF⟩),
   ("red", ⟨0xFF, 0x00, 0x00, 0xFF⟩),
   ("green", ⟨0x00, 0x80, 0x00, 0xFF⟩),
   ("blue", ⟨0x00, 0x00, 0xFF, 0xFF⟩),
   ("yellow", ⟨0xFF, 0xFF, 0x00, 0xFF⟩),
   ("orange", ⟨0xFF, 0xA5, 0x00, 0xFF⟩),
   ("purple", ⟨0x80, 0x00, 0x80, 0xFF⟩),
   ("gray", ⟨0x80, 0x80, 0x80, 0xFF⟩),
   ("grey", ⟨0x80, 0x80, 0x80, 0xFF⟩),
   ("lightgray", ⟨0xD3, 0xD3, 0xD3, 0xFF⟩),
   ("darkgray", ⟨0xA9, 0xA9, 0xA9, 0xFF⟩),
   ("transparent", transparent)]

def divider : Color := ⟨0xCA, 0xC4, 0xD0, 0x4D⟩

def ofDigits : List Nat → Option Color
  | [r, g, b] => some ⟨UInt8.ofNat (r * 17), UInt8.ofNat (g * 17), UInt8.ofNat (b * 17), 255⟩
  | [r, r', g, g', b, b'] =>
      some ⟨UInt8.ofNat (16 * r + r'), UInt8.ofNat (16 * g + g'), UInt8.ofNat (16 * b + b'), 255⟩
  | [r, r', g, g', b, b', a, a'] =>
      some ⟨UInt8.ofNat (16 * r + r'), UInt8.ofNat (16 * g + g'), UInt8.ofNat (16 * b + b'),
        UInt8.ofNat (16 * a + a')⟩
  | _ => none

/-- Reads a color: `#` and digits, or a name in any letter case, white space around it ignored. -/
def parse? (s : String) : Option Color :=
  match Text.trimEnd (Text.trimStart s.toList) with
  | '#' :: digits => (digits.mapM Text.hexValue?).bind ofDigits
  | cs =>
      let name := String.ofList (cs.map Char.toLower)
      (named.find? (·.1 == name)).map Prod.snd

end Color

abbrev Palette := Table String Color

namespace Palette

def token (s : String) : String :=
  match s.toList with
  | '@' :: cs => String.ofList cs
  | _ => s

/-- The color of a token; without one the text itself is read as a color. -/
def resolve? (palette : Palette) (s : String) : Option Color :=
  (palette.get? (token s)).or (Color.parse? (token s))

end Palette

end Widgetry
