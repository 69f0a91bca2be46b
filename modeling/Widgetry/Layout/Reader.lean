import Widgetry.Element.Reader
import Widgetry.Fingerprint
import Widgetry.Json.Outline
import Widgetry.Layout

/-!
# Reading layout documents

First the shape of the document, then its names and sizes, then its elements.
-/

namespace Widgetry

open Json (ShapeError)

structure SizeClass.Draft where
  id : Option String
  width : Option Float
  height : Option Float

namespace SizeClass

def shapeName : String := "struct SizeSpecDef"

def fieldNames : List String := ["family", "id", "width", "height"]

def readField (draft : Draft) (field : String × Json) : Except ShapeError Draft :=
  let (key, v) := field
  if key = "id" ∨ key = "family" then
    match draft.id with
    | some _ => .error (.duplicateField "id")
    | none => (Json.toText v).map fun s => { draft with id := some s }
  else if key = "width" then (Json.toNumber v).map fun x => { draft with width := some x }
  else if key = "height" then (Json.toNumber v).map fun x => { draft with height := some x }
  else .error (.unknownField key fieldNames)

def require {α : Type} (name : String) : Option α → Except ShapeError α
  | some a => .ok a
  | none => .error (.missingField name)

/-- Reads a declared size: an object, or an array of its fields in order. -/
def read : Json → Except ShapeError SizeClass
  | .object fields => do
      let draft ← fields.foldlM readField ⟨none, none, none⟩
      let id ← require "id" draft.id
      let width ← require "width" draft.width
      let height ← require "height" draft.height
      return ⟨id, width, height⟩
  | .array items => do
      let short := fun (n : Nat) => ShapeError.wrongLength n (shapeName ++ " with 3 elements")
      match items with
      | [] => throw (short 0)
      | [id] =>
          let _ ← Json.toText id
          throw (short 1)
      | [id, width] =>
          let _ ← Json.toText id
          let _ ← Json.toNumber width
          throw (short 2)
      | id :: width :: height :: rest =>
          let id ← Json.toText id
          let width ← Json.toNumber width
          let height ← Json.toNumber height
          if rest.isEmpty then return ⟨id, width, height⟩
          throw (.wrongLength items.length "fewer elements in array")
  | v => Json.wrongType v shapeName

end SizeClass

namespace Layout

/-- Fields of a layout document as far as they are known. -/
structure Draft where
  name : Option String
  displayName : Option String
  description : Option String
  defaultPadding : Option Float
  sizes : List SizeClass
  root : Option Json

def Draft.empty : Draft := ⟨none, none, none, none, [], none⟩

def shapeName : String := "struct WidgetLayoutDef"

def fieldNames : List String :=
  ["name", "displayName", "description", "defaultPadding", "supportedSizes", "layout"]

def readField (draft : Draft) (field : String × Json) : Except ShapeError Draft :=
  let (key, v) := field
  if key = "name" then (Json.toText v).map fun s => { draft with name := some s }
  else if key = "displayName" then
    (Json.toOption Json.toText v).map fun s => { draft with displayName := s }
  else if key = "description" then
    (Json.toOption Json.toText v).map fun s => { draft with description := s }
  else if key = "defaultPadding" then
    (Json.toOption Json.toNumber v).map fun x => { draft with defaultPadding := x }
  else if key = "supportedSizes" then
    (Json.toList SizeClass.read v).map fun sizes => { draft with sizes := sizes }
  else if key = "layout" then .ok { draft with root := some v }
  else .error (.unknownField key fieldNames)

def readShape : Json → Except ShapeError Draft
  | .object fields => do
      let draft ← fields.foldlM readField .empty
      let _ ← SizeClass.require "name" draft.name
      let _ ← SizeClass.require "layout" draft.root
      return draft
  | .array items => do
      let draft ← (fieldNames.zip items).foldlM readField .empty
      if draft.name.isNone then throw (.wrongLength 0 (shapeName ++ " with 6 elements"))
      if draft.root.isNone then throw (.wrongLength 5 (shapeName ++ " with 6 elements"))
      if items.length > 6 then throw (.wrongLength items.length "fewer elements in array")
      return draft
  | v => Json.wrongType v shapeName

def checkSize (place : Location) (earlier : List SizeClass) (s : SizeClass) : Except Error Unit := do
  let idPlace := place.field "id"
  if (Text.trim s.id).isEmpty then throw (.schema idPlace .emptySizeId)
  if earlier.any (·.id == s.id) then throw (.schema idPlace (.duplicateSizeId s.id))
  let word := Text.pascal s.id
  if word.isEmpty then throw (.schema idPlace (.wordlessSizeId s.id))
  match earlier.find? fun t => Text.pascal t.id == word with
  | some other => throw (.schema idPlace (.clashingSizeId s.id other.id word))
  | none => pure ()
  if !s.width.isFinite || s.width ≤ 0.0 then
    throw (.schema (place.field "width") (.sizeNotPositive "width"))
  if !s.height.isFinite || s.height ≤ 0.0 then
    throw (.schema (place.field "height") (.sizeNotPositive "height"))

def checkSizesFrom (place : Location) (i : Nat) (earlier : List SizeClass) :
    List SizeClass → Except Error Unit
  | [] => .ok ()
  | s :: rest => do
      checkSize (place.index i) earlier s
      checkSizesFrom place (i + 1) (earlier ++ [s]) rest

def checkSizes (place : Location) (sizes : List SizeClass) : Except Error Unit :=
  if sizes.isEmpty then .error (.schema place .noSizes) else checkSizesFrom place 0 [] sizes

def isBadPadding : Option Float → Bool
  | some p => !p.isFinite || p < 0.0
  | none => false

def read (document : Json) : Except Error Layout :=
  match readShape document with
  | .error e => .error (.schema .root (.invalidDocument e))
  | .ok draft => do
      let name := draft.name.getD ""
      if !Text.isIdentifier name then
        throw (.schema (Location.root.field "name") (.nameNotIdentifier name))
      if isBadPadding draft.defaultPadding then
        throw (.schema (Location.root.field "defaultPadding") .badDefaultPadding)
      checkSizes (Location.root.field "supportedSizes") draft.sizes
      let root ← Element.read (Location.root.field "layout") (draft.root.getD .null)
      return {
        name := name
        displayName := draft.displayName.getD name
        description := draft.description.getD ""
        defaultPadding := draft.defaultPadding
        sizes := draft.sizes
        root := root
        fingerprint := Fingerprint.ofJson document }

def parse (text : String) : Except Error Layout :=
  match Json.parse Json.depthLimit text with
  | .error e => .error (.schema .root (.invalidJson e))
  | .ok document => read document

end Layout

end Widgetry
