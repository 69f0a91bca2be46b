import Widgetry.Expr.Type

/-!
# Kinds of elements and their properties

Which properties there are, the shape of value each one takes, and which kind of element allows or
needs which.
-/

namespace Widgetry

inductive Kind where
  | column
  | row
  | stack
  | scrollView
  | label
  | image
  | spacer
  | divider
  | forEach
  | conditional
deriving DecidableEq, Repr

inductive Property where
  | width
  | height
  | fillWidth
  | fillHeight
  | padding
  | paddingHorizontal
  | paddingVertical
  | backgroundColor
  | cornerRadius
  | visible
  | spacing
  | alignment
  | crossAlignment
  | direction
  | text
  | color
  | fontSize
  | fontWeight
  | maxLines
  | textAlign
  | src
  | size
  | thickness
  | items
  | limit
  | condition
deriving DecidableEq, Repr, Ord

inductive Shape where
  | value (type : ValueType)
  | keyword
  | direction
  | fontWeight
  | listBinding
  | count
  | flag
deriving DecidableEq, Repr

namespace Property

def all : List Property :=
  [.width, .height, .fillWidth, .fillHeight, .padding, .paddingHorizontal, .paddingVertical,
   .backgroundColor, .cornerRadius, .visible, .spacing, .alignment, .crossAlignment, .direction,
   .text, .color, .fontSize, .fontWeight, .maxLines, .textAlign, .src, .size, .thickness, .items,
   .limit, .condition]

def name : Property → String
  | .width => "width"
  | .height => "height"
  | .fillWidth => "fillWidth"
  | .fillHeight => "fillHeight"
  | .padding => "padding"
  | .paddingHorizontal => "paddingHorizontal"
  | .paddingVertical => "paddingVertical"
  | .backgroundColor => "backgroundColor"
  | .cornerRadius => "cornerRadius"
  | .visible => "visible"
  | .spacing => "spacing"
  | .alignment => "alignment"
  | .crossAlignment => "crossAlignment"
  | .direction => "direction"
  | .text => "text"
  | .color => "color"
  | .fontSize => "fontSize"
  | .fontWeight => "fontWeight"
  | .maxLines => "maxLines"
  | .textAlign => "textAlign"
  | .src => "src"
  | .size => "size"
  | .thickness => "thickness"
  | .items => "items"
  | .limit => "limit"
  | .condition => "condition"

/-- The property of a name; `visibleIf` is another name of `visible`. -/
def ofName? (s : String) : Option Property :=
  if s = "visibleIf" then some .visible else all.find? (·.name == s)

/-- Whether every kind but the conditional allows the property. -/
def isCommon : Property → Bool
  | .width | .height | .fillWidth | .fillHeight | .padding | .paddingHorizontal
  | .paddingVertical | .backgroundColor | .cornerRadius | .visible => true
  | _ => false

def shape : Property → Shape
  | .width | .height | .padding | .paddingHorizontal | .paddingVertical | .cornerRadius
  | .spacing | .fontSize | .maxLines | .size | .thickness => .value .number
  | .backgroundColor | .color => .value .color
  | .visible | .condition => .value .bool
  | .text | .src => .value .string
  | .alignment | .crossAlignment | .textAlign => .keyword
  | .direction => .direction
  | .fontWeight => .fontWeight
  | .items => .listBinding
  | .limit => .count
  | .fillWidth | .fillHeight => .flag

/-- The type of value a property takes when its shape is a plain value. -/
def valueType (p : Property) : ValueType :=
  match p.shape with
  | .value type => type
  | _ => .any

end Property

namespace Kind

def all : List Kind :=
  [.column, .row, .stack, .scrollView, .label, .image, .spacer, .divider, .forEach, .conditional]

def name : Kind → String
  | .column => "column"
  | .row => "row"
  | .stack => "stack"
  | .scrollView => "scrollView"
  | .label => "label"
  | .image => "image"
  | .spacer => "spacer"
  | .divider => "divider"
  | .forEach => "forEach"
  | .conditional => "conditional"

def ofName? (s : String) : Option Kind := all.find? (·.name == s)

def isContainer : Kind → Bool
  | .column | .row | .stack | .scrollView => true
  | _ => false

/-- The number of the first children that may be shown, out of a number of them. -/
def showing (k : Kind) (count : Nat) : Nat :=
  match k with
  | .column | .row | .stack | .scrollView => count
  | .forEach => 1
  | .conditional => 2
  | _ => 0

def own : Kind → List Property
  | .column | .row => [.spacing, .alignment, .crossAlignment]
  | .stack => [.alignment, .crossAlignment]
  | .scrollView => [.direction]
  | .label => [.text, .color, .fontSize, .fontWeight, .maxLines, .textAlign]
  | .image => [.src, .size, .color]
  | .spacer => [.size]
  | .divider => [.color, .thickness]
  | .forEach => [.items, .limit, .direction, .spacing, .alignment, .crossAlignment]
  | .conditional => []

def allows (k : Kind) (p : Property) : Bool :=
  if k = .conditional then p == .condition || p == .visible
  else p.isCommon || k.own.contains p

def required : Kind → List Property
  | .label => [.text]
  | .image => [.src]
  | .forEach => [.items]
  | .conditional => [.condition]
  | _ => []

end Kind

end Widgetry
