import Widgetry.Element.Basic

/-!
# Flows
-/

namespace Widgetry

/-- How the children of a container follow each other. -/
inductive Flow where
  | vertical
  | horizontal
  | overlay
deriving DecidableEq, Repr

def Flow.along (horizontal : Bool) : Flow := if horizontal then .horizontal else .vertical

/-- The flow of the children of an element; what is no container hands on the flow around it. -/
def Element.flow (around : Flow) (e : Element) : Flow :=
  match e.kind with
  | .column => .vertical
  | .row => .horizontal
  | .stack => .overlay
  | .scrollView | .forEach => .along e.isHorizontal
  | _ => around

end Widgetry
