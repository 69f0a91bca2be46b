import Widgetry.Element.Basic
import Widgetry.Platform

/-!
# Layouts

A widget with its names, sizes and root element.
-/

namespace Widgetry

structure SizeClass where
  id : String
  width : Float
  height : Float

def SizeClass.size (s : SizeClass) : Size := ⟨s.width, s.height⟩

structure Layout where
  name : String
  displayName : String
  description : String
  defaultPadding : Option Float
  sizes : List SizeClass
  root : Element
  fingerprint : UInt64

namespace Layout

def size? (l : Layout) (id : String) : Option SizeClass := l.sizes.find? (·.id == id)

/-- The default padding, unless the root element sets its own. -/
def rootPadding? (l : Layout) : Option Float :=
  if (l.root.get? .padding).isSome then none else l.defaultPadding

/-- Larger areas first, equal areas by id. -/
def sizeBefore (a b : SizeClass) : Bool :=
  let x := Decimal.totalKey a.size.area
  let y := Decimal.totalKey b.size.area
  if y < x then true else if x < y then false else compare a.id b.id != .gt

def sizesByArea (l : Layout) : List SizeClass := l.sizes.mergeSort sizeBefore

end Layout

end Widgetry
