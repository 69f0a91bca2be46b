import Widgetry.Json.Outline
import Widgetry.Json.Shape

/-!
# Decoding texts

A decoder walks an outline in order, so that it stops at the first thing wrong with a text: a part of
the wrong shape, or the fault at which the text breaks off.
-/

namespace Widgetry.Json

/-- What is wrong with a text that should hold a document of some shape. -/
inductive TextError where
  | malformed (error : SyntaxError)
  | misshapen (error : ShapeError) (place : Position)
deriving DecidableEq, Repr

def TextError.message : TextError → String
  | .malformed e => e.message
  | .misshapen e place => e.message ++ " at " ++ place.render

abbrev Decoder (α : Type) := Outline → Except TextError α

namespace Decoder

/-- Refuses a part. A part without parts of its own is read first. -/
def refuse {α : Type} (wanted : String) : Decoder α
  | .leaf _ value stop => .error (.misshapen (.wrongType value.describe wanted) stop)
  | .array start _ _ => .error (.misshapen (.wrongType "sequence" wanted) start)
  | .object start _ _ => .error (.misshapen (.wrongType "map" wanted) start)
  | .broken _ e => .error (.malformed e)

def text : Decoder String
  | .leaf _ (.string s) _ => .ok s
  | part => refuse "a string" part

def optional {α : Type} (decode : Decoder α) : Decoder (Option α)
  | .leaf _ .null _ => .ok none
  | part => (decode part).map some

/-- Ends a walk over parts at the fault that follows them. -/
def finish {α : Type} (a : α) : Option SyntaxError → Except TextError α
  | some e => .error (.malformed e)
  | none => .ok a

def anyKey (key : Key) : Except TextError String := .ok key.name

def keyword {κ : Type} (ofName? : String → Option κ) (names : List String) (key : Key) :
    Except TextError κ :=
  match ofName? key.name with
  | some k => .ok k
  | none => .error (.misshapen (.unknownVariant key.name names) key.stop)

/-- An object as a table; a later field takes the place of an earlier one. -/
def table {κ α : Type} [Ord κ] (decodeKey : Key → Except TextError κ) (decode : Decoder α) :
    Decoder (Table κ α)
  | .object _ fields fault => do
      let entries ← fields.foldlM (fun (t : Table κ α) field => do
        let k ← decodeKey field.1
        let a ← decode field.2
        return t.insert k a) []
      finish entries fault
  | part => refuse "a map" part

/-- A record: its name in messages, its fields in order, and how each one is stored. -/
structure Record (σ : Type) where
  name : String
  fields : List (String × (σ → Decoder σ))

namespace Record

variable {σ : Type}

def fieldNames (r : Record σ) : List String := r.fields.map Prod.fst

def walkFields (r : Record σ) : List String → σ → List (Key × Outline) → Except TextError σ
  | _, s, [] => .ok s
  | seen, s, (key, part) :: rest =>
      match r.fields.find? (·.1 == key.name) with
      | none => .error (.misshapen (.unknownField key.name r.fieldNames) key.settled)
      | some (name, store) =>
          if seen.contains name then .error (.misshapen (.duplicateField name) key.settled)
          else do
            let s ← store s part
            walkFields r (name :: seen) s rest

/-- The fault after the last field of a record that is written as an array. -/
def trailingFault (e : SyntaxError) : SyntaxError :=
  match e.fault with
  | .expectedListSeparator => ⟨.trailingCharacters, e.place⟩
  | .endInValue => ⟨.trailingCharacters, e.place⟩
  | _ => e

/-- Walks the items of an array, each of which is the next field. -/
def walkItems : List (String × (σ → Decoder σ)) → σ → List Outline → Option SyntaxError →
    Except TextError σ
  | [], s, [], fault => finish s (fault.map trailingFault)
  | [], _, item :: _, _ =>
      .error (.malformed ⟨.trailingCharacters, ⟨item.start.line, item.start.column + 1⟩⟩)
  | _ :: _, s, [], fault => finish s fault
  | field :: fields, s, item :: items, fault => do
      let s ← field.2 s item
      walkItems fields s items fault

/-- Reads a record: an object, or an array of its fields in order. What is not there stays as it
was at the start. -/
def decode (r : Record σ) (start : σ) : Decoder σ
  | .object _ fields fault => do
      let s ← r.walkFields [] start fields
      finish s fault
  | .array _ items fault => walkItems r.fields start items fault
  | part => refuse r.name part

end Record

def run {α : Type} (decode : Decoder α) (text : String) : Except TextError α := do
  let document := Document.read depthLimit text
  let a ← decode document.root
  finish a document.trailing

end Decoder

end Widgetry.Json
