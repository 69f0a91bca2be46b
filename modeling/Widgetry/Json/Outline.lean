import Widgetry.Json.Numeral
import Widgetry.Json.Quotation

/-!
# Outlines of JSON text

An outline keeps the parts of a text with their places. A text that breaks off has an outline too: it
ends at the fault. A reader that walks the outline in order meets either a part it does not want or
the fault, whichever stands first.
-/

namespace Widgetry.Json

/-- A key with the place after its closing quote, and the place reached when the end of the object
is looked for after it. -/
structure Key where
  name : String
  stop : Position
  settled : Position

/-- A part of a text. An array or object ends at its bracket, or at the fault that stands in its
place. -/
inductive Outline where
  | leaf (start : Position) (value : Json) (stop : Position)
  | array (start : Position) (items : List Outline) (fault : Option SyntaxError)
  | object (start : Position) (fields : List (Key × Outline)) (fault : Option SyntaxError)
  | broken (start : Position) (error : SyntaxError)

namespace Outline

def start : Outline → Position
  | .leaf p _ _ => p
  | .array p _ _ => p
  | .object p _ _ => p
  | .broken p _ => p

/-- Reads the letters of a word that stands for a value. -/
def readWord (value : Json) : List Char → Cursor → Except SyntaxError (Json × Cursor)
  | [], c => .ok (value, c)
  | w :: ws, c =>
      if c.isAt w then readWord value ws c.skip else .error (c.failAt .endInValue .expectedWord)

def readLeaf (c : Cursor) : Except SyntaxError (Json × Cursor) :=
  if c.isAt 'n' then readWord .null ['u', 'l', 'l'] c.skip
  else if c.isAt 't' then readWord (.bool true) ['r', 'u', 'e'] c.skip
  else if c.isAt 'f' then readWord (.bool false) ['a', 'l', 's', 'e'] c.skip
  else if c.isAt '"' then (Quotation.read c.skip).map fun (s, c) => (.string s, c)
  else if c.isAt '-' || c.isAtDigit then (Numeral.read c).map fun (n, c) => (.number n, c)
  else .error (c.failAt .endInValue .expectedValue)

/-- The place reached when the end of an object is looked for. -/
def settle (c : Cursor) : Position :=
  let c := c.skipSpace
  if c.isAt '\x7d' then c.skip.place else c.place

/-- Where reading stops: after what was read, or at a fault. -/
abbrev Stop := Except SyntaxError Cursor

def fault? : Stop → Option SyntaxError
  | .error e => some e
  | .ok _ => none

/-- A part that breaks off where it starts. -/
def halted (c : Cursor) (e : SyntaxError) : Outline × Stop := (.broken c.place e, .error e)

/-- Whether a part of an array or object comes next, and not the closing bracket. -/
def nextPart (close : Char) (ended separated : SyntaxFault) (first : Bool) (c : Cursor) :
    Except SyntaxError (Bool × Cursor) :=
  let c := c.skipSpace
  if c.isAt close then .ok (false, c.skip)
  else if c.rest.isEmpty then .error (c.failNext ended)
  else if first then .ok (true, c)
  else if c.isAt ',' then
    let c := c.skip.skipSpace
    if c.isAt close then .error (c.failNext .trailingComma)
    else if c.rest.isEmpty then .error (c.failNext .endInValue)
    else .ok (true, c)
  else .error (c.failNext separated)

/-- Reads parts one after the other; `fuel` bounds their number. -/
def readParts {α : Type} (next : Bool → Cursor → Except SyntaxError (Bool × Cursor))
    (one : Cursor → List α × Stop) : Nat → Bool → Cursor → List α × Stop
  | 0, _, c => ([], .error (c.failNext .endInValue))
  | fuel + 1, first, c =>
      match next first c with
      | .error e => ([], .error e)
      | .ok (false, c) => ([], .ok c)
      | .ok (true, c) =>
          match one c with
          | (parts, .error e) => (parts, .error e)
          | (parts, .ok c) =>
              let (rest, stop) := readParts next one fuel false c
              (parts ++ rest, stop)

section

variable (read : Cursor → Outline × Stop)

def readItem (c : Cursor) : List Outline × Stop :=
  let (item, stop) := read c
  ([item], stop)

/-- Reads what follows a key. -/
def readValue (c : Cursor) : Outline × Stop :=
  let c := c.skipSpace
  if c.isAt ':' then read c.skip else halted c (c.failAt .endInObject .expectedColon)

def readField (c : Cursor) : List (Key × Outline) × Stop :=
  if c.isAt '"' then
    match Quotation.read c.skip with
    | .error e => ([], .error e)
    | .ok (name, c) =>
        let (value, stop) := readValue read c
        ([(⟨name, c.place, settle c⟩, value)], stop)
  else ([], .error (c.failNext .keyNotString))

end

/-- Reads a value, given how those below it are read unless brackets are nested too deep. -/
def readWith (below : Option (Cursor → Outline × Stop)) (c : Cursor) : Outline × Stop :=
  let c := c.skipSpace
  let fuel := c.rest.length
  if c.isAt '[' || c.isAt '\x7b' then
    match below with
    | none => halted c (c.failNext .tooDeep)
    | some read =>
        if c.isAt '[' then
          let (items, stop) := readParts (nextPart ']' .endInList .expectedListSeparator)
            (readItem read) fuel true c.skip
          (.array c.place items (fault? stop), stop)
        else
          let (fields, stop) := readParts (nextPart '\x7d' .endInObject .expectedObjectSeparator)
            (readField read) fuel true c.skip
          (.object c.place fields (fault? stop), stop)
  else
    match readLeaf c with
    | .ok (value, d) => (.leaf c.place value d.place, .ok d)
    | .error e => halted c e

/-- Reads a value with brackets nested up to a depth. -/
def read : Nat → Cursor → Outline × Stop
  | 0 => readWith none
  | depth + 1 => readWith (some (read depth))

mutual

def toJson : Outline → Except SyntaxError Json
  | .leaf _ value _ => .ok value
  | .broken _ e => .error e
  | .array _ items fault => do
      let values ← itemsToJson items
      match fault with
      | some e => throw e
      | none => return .array values
  | .object _ fields fault => do
      let values ← fieldsToJson fields
      match fault with
      | some e => throw e
      | none => return .object (Table.ofList values)

def itemsToJson : List Outline → Except SyntaxError (List Json)
  | [] => .ok []
  | item :: items => do
      let value ← item.toJson
      let values ← itemsToJson items
      return value :: values

def fieldsToJson : List (Key × Outline) → Except SyntaxError (List (String × Json))
  | [] => .ok []
  | (key, part) :: fields => do
      let value ← part.toJson
      let values ← fieldsToJson fields
      return (key.name, value) :: values

end

end Outline

/-- A whole text: its outline, and the fault that keeps it from ending there. -/
structure Document where
  root : Outline
  trailing : Option SyntaxError

def depthLimit : Nat := 128

/-- The outline of a text with brackets nested below a limit. -/
def Document.read (limit : Nat) (text : String) : Document :=
  let (root, stop) := Outline.read (limit - 1) (.ofString text)
  let trailing := match stop with
    | .error e => some e
    | .ok c =>
        let c := c.skipSpace
        if c.rest.isEmpty then none else some (c.failNext .trailingCharacters)
  ⟨root, trailing⟩

def parse (limit : Nat) (text : String) : Except SyntaxError Json := do
  let document := Document.read limit text
  let value ← document.root.toJson
  match document.trailing with
  | some e => throw e
  | none => return value

end Widgetry.Json
