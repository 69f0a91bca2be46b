import Widgetry.Binding.Basic
import Widgetry.Expr.Operator
import Widgetry.Expr.Type
import Widgetry.Location

/-!
# Expressions

Literals, reads of a binding, presence tests and operators, each with its location in the document.
-/

namespace Widgetry

inductive Expr where
  | literal (place : Location) (value : Literal)
  | get (place : Location) (binding : Binding) (default : Option Literal)
  | has (place : Location) (binding : Binding)
  | op (place : Location) (operator : Operator) (args : List Expr)

namespace Expr

def place : Expr → Location
  | .literal p _ => p
  | .get p _ _ => p
  | .has p _ => p
  | .op p _ _ => p

mutual

/-- Bindings in source order, repeats kept. -/
def bindings : Expr → List Binding
  | .literal _ _ => []
  | .get _ b _ => [b]
  | .has _ b => [b]
  | .op _ _ args => bindingsOf args

def bindingsOf : List Expr → List Binding
  | [] => []
  | e :: es => e.bindings ++ bindingsOf es

end

end Expr

inductive PropertyValue where
  | literal (value : Literal)
  | binding (b : Binding)
  | setting (key : String)
  | expression (e : Expr)

namespace PropertyValue

def string? : PropertyValue → Option String
  | .literal (.string s) => some s
  | _ => none

def number? : PropertyValue → Option Float
  | .literal (.number x) => some x
  | _ => none

def bool? : PropertyValue → Option Bool
  | .literal (.bool b) => some b
  | _ => none

end PropertyValue

end Widgetry
