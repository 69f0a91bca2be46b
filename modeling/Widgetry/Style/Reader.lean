import Widgetry.Error
import Widgetry.Style.Basic

/-!
# Reading style configurations

A configuration is laid over its base: the built-in style, or nothing. In the end no table may have a
gap.
-/

namespace Widgetry.Style

open Json (Decoder TextError)

structure Overlay where
  base : Option String
  palettes : Table Platform (Table String String)
  alignment : Table Platform AlignmentTable
  textAlign : Table Platform (Table Alignment String)
  fontWeights : Table Platform (Table FontWeight String)

namespace Overlay

def empty : Overlay := ⟨none, [], [], [], []⟩

def byPlatform {α : Type} (decode : Decoder α) : Decoder (Table Platform α) :=
  Decoder.table (Decoder.keyword Platform.ofName? (Platform.all.map Platform.name)) decode

def byAlignment : Decoder (Table Alignment String) :=
  Decoder.table (Decoder.keyword Alignment.ofName? (Alignment.all.map Alignment.name)) Decoder.text

def byWeight : Decoder (Table FontWeight String) :=
  Decoder.table (Decoder.keyword FontWeight.ofName? (FontWeight.all.map FontWeight.name))
    Decoder.text

def alignmentRecord : Decoder.Record AlignmentTable where
  name := "struct AlignmentTable"
  fields :=
    [("horizontal", fun t part => (byAlignment part).map fun h => { t with horizontal := h }),
     ("vertical", fun t part => (byAlignment part).map fun v => { t with vertical := v })]

def record : Decoder.Record Overlay where
  name := "struct StyleConfigDef"
  fields :=
    [("extends", fun o part =>
        (Decoder.optional Decoder.text part).map fun b => { o with base := b }),
     ("palettes", fun o part =>
        (byPlatform (Decoder.table Decoder.anyKey Decoder.text) part).map
          fun t => { o with palettes := t }),
     ("alignment", fun o part =>
        (byPlatform (alignmentRecord.decode .empty) part).map fun t => { o with alignment := t }),
     ("textAlign", fun o part =>
        (byPlatform byAlignment part).map fun t => { o with textAlign := t }),
     ("fontWeights", fun o part =>
        (byPlatform byWeight part).map fun t => { o with fontWeights := t })]

def parse (text : String) : Except TextError Overlay :=
  Decoder.run (record.decode .empty) text

end Overlay

def base : Option String → Except Error Style
  | none => .ok .empty
  | some name => if name = "builtin" then .ok builtin else .error (.config (.unknownBase name))

def paletteColor (p : Platform) (token hex : String) : Except Error Color :=
  match Color.parse? hex with
  | some c => .ok c
  | none => .error (.config (.invalidToken p token hex))

/-- Lays palette entries, which must be colors, over a palette. -/
def overlayPalette (p : Platform) (palette : Palette) (entries : Table String String) :
    Except Error Palette :=
  entries.foldlM (fun palette entry => do
    let c ← paletteColor p entry.1 entry.2
    return palette.insert entry.1 c) palette

def overlayPalettes (palettes : Table Platform Palette)
    (tops : Table Platform (Table String String)) : Except Error (Table Platform Palette) :=
  tops.foldlM (fun palettes top => do
    let palette ← overlayPalette top.1 ((palettes.get? top.1).getD []) top.2
    return palettes.insert top.1 palette) palettes

def overlayTables {α : Type} (none : α) (lay : α → α → α) (bases tops : Table Platform α) :
    Table Platform α :=
  tops.foldl (fun t top => t.insert top.1 (lay ((t.get? top.1).getD none) top.2)) bases

def require (holds : Bool) (cause : ConfigCause) : Except Error Unit :=
  if holds then .ok () else .error (.config cause)

def checkPlatform (s : Style) (p : Platform) : Except Error Unit := do
  Axis.all.forM fun axis => Alignment.all.forM fun a =>
    require (s.alignment? p axis a).isSome (.missingAlignment p axis a)
  Alignment.all.forM fun a => require (s.textAlign? p a).isSome (.missingTextAlignment p a)
  FontWeight.all.forM fun w => require (s.fontWeight? p w).isSome (.missingWeight p w)

def check (s : Style) : Except Error Unit := Platform.all.forM s.checkPlatform

def ofOverlay (o : Overlay) : Except Error Style := do
  let bottom ← base o.base
  let palettes ← overlayPalettes bottom.palettes o.palettes
  let s : Style := {
    palettes := palettes
    alignment := overlayTables .empty AlignmentTable.overlay bottom.alignment o.alignment
    textAlign := overlayTables [] Table.overlay bottom.textAlign o.textAlign
    fontWeights := overlayTables [] Table.overlay bottom.fontWeights o.fontWeights }
  s.check
  return s

def parse (text : String) : Except Error Style :=
  match Overlay.parse text with
  | .error e => .error (.config (.invalidText e))
  | .ok o => ofOverlay o

end Widgetry.Style
