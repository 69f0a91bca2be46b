import Widgetry.Color
import Widgetry.Platform
import Widgetry.Style.Keyword

/-!
# Style configurations

Palettes and tables of native constants, by platform.
-/

namespace Widgetry

structure AlignmentTable where
  horizontal : Table Alignment String
  vertical : Table Alignment String
deriving DecidableEq

namespace AlignmentTable

def empty : AlignmentTable := ⟨[], []⟩

def axis (t : AlignmentTable) : Axis → Table Alignment String
  | .horizontal => t.horizontal
  | .vertical => t.vertical

def overlay (base top : AlignmentTable) : AlignmentTable :=
  ⟨base.horizontal.overlay top.horizontal, base.vertical.overlay top.vertical⟩

end AlignmentTable

structure Style where
  palettes : Table Platform Palette
  alignment : Table Platform AlignmentTable
  textAlign : Table Platform (Table Alignment String)
  fontWeights : Table Platform (Table FontWeight String)
deriving DecidableEq

namespace Style

def empty : Style := ⟨[], [], [], []⟩

def palette (s : Style) (p : Platform) : Palette := (s.palettes.get? p).getD []

def themeColor? (s : Style) (p : Platform) (token : String) : Option Color :=
  (s.palette p).get? (Palette.token token)

def resolveColor? (s : Style) (p : Platform) (text : String) : Option Color :=
  (s.palette p).resolve? text

def alignment? (s : Style) (p : Platform) (axis : Axis) (a : Alignment) : Option String :=
  (s.alignment.get? p).bind fun t => (t.axis axis).get? a

def textAlign? (s : Style) (p : Platform) (a : Alignment) : Option String :=
  (s.textAlign.get? p).bind fun t => t.get? a

def fontWeight? (s : Style) (p : Platform) (w : FontWeight) : Option String :=
  (s.fontWeights.get? p).bind fun t => t.get? w

/-! ### The built-in style -/

def theme : Palette :=
  Table.ofList
    [("onSurface", ⟨0xE6, 0xE1, 0xE5, 0xFF⟩),
     ("onSurfaceVariant", ⟨0xCA, 0xC4, 0xD0, 0xFF⟩),
     ("primary", ⟨0xD0, 0xBC, 0xFF, 0xFF⟩),
     ("error", ⟨0xF2, 0xB8, 0xB5, 0xFF⟩),
     ("widgetBackground", ⟨0x1C, 0x1B, 0x1F, 0xFF⟩),
     ("surface", ⟨0x2B, 0x29, 0x30, 0xFF⟩)]

def aligned (start center stop stretch : String) : Table Alignment String :=
  [(.start, start), (.center, center), (.stop, stop), (.stretch, stretch)]

def weighted (normal medium bold : String) : Table FontWeight String :=
  [(.normal, normal), (.medium, medium), (.bold, bold)]

/-- A dark theme and the native constants of all platforms. -/
def builtin : Style where
  palettes := Platform.all.map fun p => (p, theme)
  alignment :=
    [(.glance,
      ⟨aligned "Alignment.Horizontal.Start" "Alignment.Horizontal.CenterHorizontally"
        "Alignment.Horizontal.End" "Alignment.Horizontal.Start",
       aligned "Alignment.Vertical.Top" "Alignment.Vertical.CenterVertically"
        "Alignment.Vertical.Bottom" "Alignment.Vertical.Top"⟩),
     (.swiftUI,
      ⟨aligned ".leading" ".center" ".trailing" ".leading",
       aligned ".top" ".center" ".bottom" ".top"⟩),
     (.nativeScript,
      ⟨aligned "left" "center" "right" "stretch", aligned "top" "middle" "bottom" "stretch"⟩),
     (.html,
      ⟨aligned "flex-start" "center" "flex-end" "stretch",
       aligned "flex-start" "center" "flex-end" "stretch"⟩)]
  textAlign :=
    [(.glance, aligned "TextAlign.Start" "TextAlign.Center" "TextAlign.End" "TextAlign.Justify"),
     (.swiftUI, aligned ".leading" ".center" ".trailing" ".leading"),
     (.nativeScript, aligned "left" "center" "right" "justify"),
     (.html, aligned "left" "center" "right" "justify")]
  fontWeights :=
    [(.glance, weighted "FontWeight.Normal" "FontWeight.Medium" "FontWeight.Bold"),
     (.swiftUI, weighted ".regular" ".medium" ".bold"),
     (.nativeScript, weighted "normal" "500" "bold"),
     (.html, weighted "400" "500" "700")]

end Style

end Widgetry
