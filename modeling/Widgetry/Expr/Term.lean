import Widgetry.Binding.Basic
import Widgetry.Expr.Operator
import Widgetry.Expr.Type

/-!
# Terms

A term is a checked property value: every operand stands at the type its operator needs, and each
conversion between types is written out.
-/

namespace Widgetry

/-- What a read yields when its binding does not resolve. -/
inductive Fallback where
  | default (value : Literal)
  | zero
  | null
deriving DecidableEq

inductive Term where
  | literal (value : Literal)
  | read (binding : Binding) (want : ValueType) (fallback : Fallback)
  | presence (binding : Binding)
  | apply (operator : Operator) (args : List Term) (result : ValueType)
  | coerce (term : Term) (target : ValueType)

def Term.type : Term → ValueType
  | .literal l => l.type
  | .read _ want _ => want
  | .presence _ => .bool
  | .apply _ _ result => result
  | .coerce _ target => target

end Widgetry
