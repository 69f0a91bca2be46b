import Widgetry.Decimal.Notation
import Widgetry.Json.Basic

/-!
# Writing JSON

A value on one line, or spread over lines with two spaces of indentation per level.
-/

namespace Widgetry.Json

def hexFour (n : Nat) : String :=
  let ds := Nat.toDigits 16 n
  String.ofList (List.replicate (4 - ds.length) '0' ++ ds)

def escapeChar (c : Char) : String :=
  if c = '"' then "\\\""
  else if c = '\\' then "\\\\"
  else if c = '\x08' then "\\b"
  else if c = '\x0c' then "\\f"
  else if c = '\n' then "\\n"
  else if c = '\r' then "\\r"
  else if c = '\t' then "\\t"
  else if c.toNat < 0x20 then "\\u" ++ hexFour c.toNat
  else c.toString

def quote (s : String) : String :=
  "\"" ++ String.join (s.toList.map escapeChar) ++ "\""

/-- A finite number in document form; a number that is not finite is written as null. -/
def Number.render : Number → String
  | .integer n => toString n
  | .float x => if x.isFinite then Decimal.render .document x else "null"

def bracketed (opening closing : String) (level : Nat) (items : List String) : String :=
  if items.isEmpty then opening ++ closing
  else
    let indent := fun n => String.join (List.replicate n "  ")
    opening ++ "\n"
      ++ String.intercalate ",\n" (items.map (indent (level + 1) ++ ·))
      ++ "\n" ++ indent level ++ closing

mutual

/-- Text of a value spread over lines, standing at a level of indentation. -/
def prettyAt (level : Nat) : Json → String
  | .null => "null"
  | .bool b => if b then "true" else "false"
  | .number n => n.render
  | .string s => quote s
  | .array items => bracketed "[" "]" level (prettyItems (level + 1) items)
  | .object fields => bracketed "\x7b" "\x7d" level (prettyFields (level + 1) fields)

def prettyItems (level : Nat) : List Json → List String
  | [] => []
  | item :: items => prettyAt level item :: prettyItems level items

def prettyFields (level : Nat) : List (String × Json) → List String
  | [] => []
  | (key, value) :: fields =>
      (quote key ++ ": " ++ prettyAt level value) :: prettyFields level fields

end

def pretty (value : Json) : String := prettyAt 0 value

mutual

def compress : Json → String
  | .null => "null"
  | .bool b => if b then "true" else "false"
  | .number n => n.render
  | .string s => quote s
  | .array items => "[" ++ String.intercalate "," (compressItems items) ++ "]"
  | .object fields => "\x7b" ++ String.intercalate "," (compressFields fields) ++ "\x7d"

def compressItems : List Json → List String
  | [] => []
  | item :: items => compress item :: compressItems items

def compressFields : List (String × Json) → List String
  | [] => []
  | (key, value) :: fields => (quote key ++ ":" ++ compress value) :: compressFields fields

end

end Widgetry.Json
