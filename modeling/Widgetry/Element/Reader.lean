import Widgetry.Element.Basic
import Widgetry.Expr.Reader

/-!
# Reading elements

Keys are taken in order. Properties are read as they are met; then the required ones are looked for,
and last the template or the branches are read.
-/

namespace Widgetry

namespace PropertyValue

/-- The value of a template: a lone placeholder is a binding, anything else a concatenation. -/
def ofTemplate (place : Location) : List TemplatePart → PropertyValue
  | [.placeholder b] => .binding b
  | parts =>
      .expression (.op place .concat (parts.map fun
        | .text s => .literal place (.string s)
        | .placeholder b => .op place .toString [.get place b none]))

/-- Reads text: a settings reference, a binding, a template where text is wanted, or itself. -/
def readString (type : ValueType) (place : Location) (s : String) : Except Error PropertyValue :=
  match Binding.settingKey? s, Binding.parse? s with
  | some key, _ => .ok (.setting key)
  | none, some b =>
      if b.isStraySize then .error (.schema place (.unknownSizeAxis s)) else .ok (.binding b)
  | none, none =>
      if type = .string then
        match Template.parse s with
        | .error e => .error (.schema place (.badTemplate e))
        | .ok (some parts) => .ok (ofTemplate place parts)
        | .ok none => .ok (.literal (.string s))
      else .ok (.literal (.string s))

def readValue (type : ValueType) (place : Location) : Json → Except Error PropertyValue
  | .number n => .ok (.literal (.number n.toFloat))
  | .bool b => .ok (.literal (.bool b))
  | .string s => readString type place s
  | .array items => (Expr.read place (.array items)).map .expression
  | .null => .error (.schema place .malformedValue)
  | .object _ => .error (.schema place .malformedValue)

/-- Reads a binding to a list: one of the item or of the data. -/
def readList (place : Location) (v : Json) : Except Error PropertyValue :=
  let found := v.string?.bind fun s => (Binding.parse? s).or (Binding.parse? ("item." ++ s))
  match found with
  | some b =>
      if b.scope = .item ∨ b.scope = .data then .ok (.binding b)
      else .error (.schema place .notListBinding)
  | none => .error (.schema place .notListBinding)

def read (property : Property) (place : Location) (v : Json) : Except Error PropertyValue :=
  match property.shape, v with
  | .value type, v => readValue type place v
  | .keyword, .string s => .ok (.literal (.string s))
  | .keyword, _ => .error (.schema place (.notKeyword property))
  | .direction, .string s =>
      if s = "vertical" ∨ s = "horizontal" then .ok (.literal (.string s))
      else .error (.schema place .notDirection)
  | .direction, _ => .error (.schema place .notDirection)
  | .fontWeight, .bool b => .ok (.literal (.bool b))
  | .fontWeight, .string s => readString .any place s
  | .fontWeight, .array items => readValue .any place (.array items)
  | .fontWeight, _ => .error (.schema place .notFontWeight)
  | .listBinding, v => readList place v
  | .count, .number n =>
      match n.natural? with
      | some k => .ok (.literal (.number (Float.ofNat k)))
      | none => .error (.schema place (.notCount property))
  | .count, _ => .error (.schema place (.notCount property))
  | .flag, .bool b => .ok (.literal (.bool b))
  | .flag, _ => .error (.schema place (.notFlag property))

end PropertyValue

namespace Element

def readKind (place : Location) (fields : List (String × Json)) : Except Error Kind :=
  match Table.get? fields "type" with
  | none => .error (.schema place .missingType)
  | some (.string name) =>
      match Kind.ofName? name with
      | some kind => .ok kind
      | none => .error (.schema (place.field "type") (.unknownKind name))
  | some _ => .error (.schema (place.field "type") .typeNotString)

structure Parts where
  id : Option String
  properties : Table Property PropertyValue
  children : List Element

def readProperty (kind : Kind) (place : Location) (key : String) (v : Json) (parts : Parts) :
    Except Error Parts :=
  match Property.ofName? key with
  | none => .error (.schema place (.unknownProperty key kind))
  | some property =>
      if !kind.allows property then .error (.schema place (.propertyNotAllowed key kind))
      else do
        let value ← PropertyValue.read property place v
        if parts.properties.contains property then
          throw (.schema place (.repeatedProperty property))
        return { parts with properties := parts.properties.insert property value }

/-- Reads a key that holds no elements. -/
def readPlain (kind : Kind) (place : Location) (key : String) (v : Json) (parts : Parts) :
    Except Error Parts :=
  if key = "type" then .ok parts
  else if key = "id" then
    match v with
    | .string s => .ok { parts with id := some s }
    | _ => .error (.schema place .idNotString)
  else if key = "itemTemplate" then
    if kind = .forEach then .ok parts else .error (.schema place (.slotNotAllowed key kind))
  else if key = "then" ∨ key = "else" then
    if kind = .conditional then .ok parts else .error (.schema place (.slotNotAllowed key kind))
  else readProperty kind place key v parts

def checkRequired (kind : Kind) (place : Location) (parts : Parts) : Except Error Unit :=
  match kind.required.find? fun p => !parts.properties.contains p with
  | some p => .error (.schema place (.missingPart kind p.name))
  | none => .ok ()

mutual

def read (place : Location) : Json → Except Error Element
  | .object fields => do
      let kind ← readKind place fields
      let parts ← readFields kind place ⟨none, [], []⟩ fields
      checkRequired kind place parts
      let slots ← match kind with
        | .forEach => readSlot kind place "itemTemplate" true fields
        | .conditional => do
            let first ← readSlot kind place "then" true fields
            let second ← readSlot kind place "else" false fields
            pure (first ++ second)
        | _ => pure []
      return ⟨kind, parts.id, parts.properties, parts.children ++ slots, place⟩
  | _ => .error (.schema place .elementNotObject)

def readFields (kind : Kind) (place : Location) (parts : Parts) :
    List (String × Json) → Except Error Parts
  | [] => .ok parts
  | (key, v) :: fields => do
      let here := place.field key
      if key = "children" then
        if !kind.isContainer then throw (.schema here (.childrenNotAllowed kind))
        match v with
        | .array items =>
            let children ← readItems here 0 items
            readFields kind place { parts with children := children } fields
        | _ => throw (.schema here .childrenNotArray)
      else
        let parts ← readPlain kind here key v parts
        readFields kind place parts fields

def readItems (place : Location) (i : Nat) : List Json → Except Error (List Element)
  | [] => .ok []
  | item :: items => do
      let e ← read (place.index i) item
      let es ← readItems place (i + 1) items
      return e :: es

/-- Reads the element under a key, if there is one; a needed one must be there. -/
def readSlot (kind : Kind) (place : Location) (slot : String) (needed : Bool) :
    List (String × Json) → Except Error (List Element)
  | [] => if needed then .error (.schema place (.missingPart kind slot)) else .ok []
  | (key, v) :: fields =>
      if key = slot then (read (place.field slot) v).map ([·])
      else readSlot kind place slot needed fields

end

end Element

end Widgetry
