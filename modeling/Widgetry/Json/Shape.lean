import Widgetry.Json.Writer
import Widgetry.Text.Quoted

/-!
# Documents of the wrong shape
-/

namespace Widgetry.Json

inductive ShapeError where
  | missingField (name : String)
  | duplicateField (name : String)
  | unknownField (name : String) (known : List String)
  | unknownVariant (name : String) (known : List String)
  | wrongType (found wanted : String)
  | wrongLength (length : Nat) (wanted : String)
deriving DecidableEq, Repr

def describe : Json → String
  | .null => "null"
  | .bool b => "boolean `" ++ (if b then "true" else "false") ++ "`"
  | .number (.integer n) => "integer `" ++ toString n ++ "`"
  | .number (.float x) => "floating point `" ++ Number.render (.float x) ++ "`"
  | .string s => "string " ++ Text.quoted s
  | .array _ => "sequence"
  | .object _ => "map"

def tick (s : String) : String := "`" ++ s ++ "`"

def oneOf : List String → String
  | [] => "there are no fields"
  | [a] => "expected " ++ tick a
  | [a, b] => "expected " ++ tick a ++ " or " ++ tick b
  | names => "expected one of " ++ String.intercalate ", " (names.map tick)

def ShapeError.message : ShapeError → String
  | .missingField name => "missing field " ++ tick name
  | .duplicateField name => "duplicate field " ++ tick name
  | .unknownField name known => "unknown field " ++ tick name ++ ", " ++ oneOf known
  | .unknownVariant name known => "unknown variant " ++ tick name ++ ", " ++ oneOf known
  | .wrongType found wanted => "invalid type: " ++ found ++ ", expected " ++ wanted
  | .wrongLength length wanted =>
      "invalid length " ++ toString length ++ ", expected " ++ wanted

def wrongType {α : Type} (found : Json) (wanted : String) : Except ShapeError α :=
  .error (.wrongType found.describe wanted)

def toText : Json → Except ShapeError String
  | .string s => .ok s
  | j => wrongType j "a string"

def toNumber : Json → Except ShapeError Float
  | .number n => .ok n.toFloat
  | j => wrongType j "f64"

def toOption {α : Type} (read : Json → Except ShapeError α) : Json → Except ShapeError (Option α)
  | .null => .ok none
  | j => (read j).map some

def toList {α : Type} (read : Json → Except ShapeError α) : Json → Except ShapeError (List α)
  | .array items => items.mapM read
  | j => wrongType j "a sequence"

end Widgetry.Json
