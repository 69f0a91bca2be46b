import Widgetry.Color

/-!
# Types and literals of expressions
-/

namespace Widgetry

inductive ValueType where
  | number
  | string
  | bool
  | color
  | any
deriving DecidableEq, Repr

namespace ValueType

def all : List ValueType := [.number, .string, .bool, .color, .any]

def name : ValueType → String
  | .number => "number"
  | .string => "string"
  | .bool => "boolean"
  | .color => "color"
  | .any => "any"

def ofName? (s : String) : Option ValueType := all.find? (·.name == s)

end ValueType

inductive Literal where
  | number (x : Float)
  | string (s : String)
  | bool (b : Bool)
  | color (c : Color)
deriving DecidableEq

def Literal.type : Literal → ValueType
  | .number _ => .number
  | .string _ => .string
  | .bool _ => .bool
  | .color _ => .color

end Widgetry
