import Widgetry.Decimal.Binary
import Widgetry.Element.Kind
import Widgetry.Expr.Basic
import Widgetry.Table

/-!
# Elements of a layout

A tree of elements. The template of a `forEach` is its only child; the branches of a `conditional`
are its first and second child.
-/

namespace Widgetry

structure Element where
  kind : Kind
  id : Option String
  properties : Table Property PropertyValue
  children : List Element
  place : Location

namespace Element

def get? (e : Element) (p : Property) : Option PropertyValue := e.properties.get? p

def isHorizontal (e : Element) : Bool :=
  match e.get? .direction with
  | some v => v.string? == some "horizontal"
  | none => false

def limit? (e : Element) : Option Nat :=
  ((e.get? .limit).bind PropertyValue.number?).map Decimal.toNat64

def descendant? : Element → List Nat → Option Element
  | e, [] => some e
  | e, i :: rest => e.children[i]?.bind fun c => c.descendant? rest

mutual

/-- The element and all below it, each before its children. -/
def walk : Element → List Element
  | ⟨kind, id, properties, children, place⟩ =>
      ⟨kind, id, properties, children, place⟩ :: walkAll children

def walkAll : List Element → List Element
  | [] => []
  | e :: es => walk e ++ walkAll es

end

end Element

end Widgetry
