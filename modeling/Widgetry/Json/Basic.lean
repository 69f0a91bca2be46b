import Widgetry.Table

/-!
# JSON values

Objects are tables in key order. A number is an integer of 64 bits or a float, and the two kinds are
never equal.
-/

namespace Widgetry

/-- A JSON number: `integer` for what is written as an integer within 64 bits, `float` otherwise. -/
inductive Json.Number where
  | integer (n : Int)
  | float (x : Float)
deriving DecidableEq

inductive Json where
  | null
  | bool (b : Bool)
  | number (n : Json.Number)
  | string (s : String)
  | array (items : List Json)
  | object (fields : List (String × Json))

instance : Inhabited Json := ⟨.null⟩

namespace Json

namespace Number

def toFloat : Number → Float
  | .integer n => Float.ofInt n
  | .float x => x

/-- Equality of numbers: floats by value, so both zeros are equal. -/
def same : Number → Number → Bool
  | .integer a, .integer b => a == b
  | .float a, .float b => a == b
  | _, _ => false

/-- A natural number, if the number is written as one. -/
def natural? : Number → Option Nat
  | .integer (.ofNat n) => some n
  | _ => none

end Number

mutual

/-- Equality of values, with numbers compared by `Number.same`. -/
def same : Json → Json → Bool
  | .null, .null => true
  | .bool a, .bool b => a == b
  | .number a, .number b => a.same b
  | .string a, .string b => a == b
  | .array as, .array bs => sameItems as bs
  | .object as, .object bs => sameFields as bs
  | _, _ => false

def sameItems : List Json → List Json → Bool
  | [], [] => true
  | a :: as, b :: bs => a.same b && sameItems as bs
  | _, _ => false

def sameFields : List (String × Json) → List (String × Json) → Bool
  | [], [] => true
  | (k, a) :: as, (l, b) :: bs => k == l && a.same b && sameFields as bs
  | _, _ => false

end

def string? : Json → Option String
  | .string s => some s
  | _ => none

def array? : Json → Option (List Json)
  | .array items => some items
  | _ => none

def field? : Json → String → Option Json
  | .object fields, key => Table.get? fields key
  | _, _ => none

end Json

end Widgetry
