import Widgetry.Element.Flow
import Widgetry.Expr.Value
import Widgetry.Platform
import Widgetry.Style.Basic

/-!
# Native vocabulary of view targets

Which tags and properties a layout becomes, and how values are written in them.
-/

namespace Widgetry

/-- How a value becomes a native property. `hidden` is an attribute that is there or not. -/
inductive Encoding where
  | number
  | px
  | color
  | text
  | fontWeight
  | visibility
  | hidden
deriving DecidableEq, Repr

/-- Whether a missing value reads as false. -/
def Encoding.isFlag : Encoding → Bool
  | .visibility | .hidden => true
  | _ => false

/-- Where the gap between children is written: on the container, or on every child but the first. -/
inductive GapPlace where
  | container (name : String)
  | following (name : String)
deriving DecidableEq, Repr

namespace ViewTarget

def tag : ViewTarget → Kind → String
  | .nativeScript, .column | .nativeScript, .row | .nativeScript, .forEach => "StackLayout"
  | .nativeScript, .stack => "GridLayout"
  | .nativeScript, .scrollView => "ScrollView"
  | .nativeScript, .label => "Label"
  | .nativeScript, .image => "Image"
  | .nativeScript, _ => "ContentView"
  | .html, .label => "span"
  | .html, .image => "img"
  | .html, _ => "div"

def scrollContentTag : ViewTarget → String
  | .nativeScript => "StackLayout"
  | .html => "div"

def containerProperties : ViewTarget → Flow → List (String × String)
  | .nativeScript, .vertical => [("orientation", "vertical")]
  | .nativeScript, .horizontal => [("orientation", "horizontal")]
  | .nativeScript, .overlay => []
  | .html, .vertical => [("style:display", "flex"), ("style:flex-direction", "column")]
  | .html, .horizontal => [("style:display", "flex"), ("style:flex-direction", "row")]
  | .html, .overlay => [("style:display", "grid")]

def scrollProperties : ViewTarget → Flow → List (String × String)
  | .nativeScript, .horizontal => [("orientation", "horizontal")]
  | .nativeScript, _ => [("orientation", "vertical")]
  | .html, .horizontal => [("style:overflow-x", "auto")]
  | .html, _ => [("style:overflow-y", "auto")]

def wrapperProperties : ViewTarget → List (String × String)
  | .nativeScript => []
  | .html => [("style:display", "contents")]

def overlayChildProperties : ViewTarget → List (String × String)
  | .nativeScript => []
  | .html => [("style:grid-area", "1 / 1")]

/-- The native properties of a style property on a kind, and how its value is written. -/
def outputs : ViewTarget → Property → Kind → List String × Encoding
  | .html, .width, _ => (["style:width"], .px)
  | .html, .height, _ => (["style:height"], .px)
  | .html, .padding, _ => (["style:padding"], .px)
  | .html, .paddingHorizontal, _ => (["style:padding-left", "style:padding-right"], .px)
  | .html, .paddingVertical, _ => (["style:padding-top", "style:padding-bottom"], .px)
  | .html, .backgroundColor, _ => (["style:background-color"], .color)
  | .html, .cornerRadius, _ => (["style:border-radius"], .px)
  | .html, .visible, _ => (["hidden"], .hidden)
  | .html, .color, .image => (["data-tint"], .color)
  | .html, .color, .divider => (["style:background-color"], .color)
  | .html, .color, _ => (["style:color"], .color)
  | .html, .fontSize, _ => (["style:font-size"], .px)
  | .html, .fontWeight, _ => (["style:font-weight"], .fontWeight)
  | .html, .maxLines, _ => (["style:-webkit-line-clamp"], .number)
  | .nativeScript, .width, _ => (["width"], .number)
  | .nativeScript, .height, _ => (["height"], .number)
  | .nativeScript, .padding, _ => (["padding"], .number)
  | .nativeScript, .paddingHorizontal, _ => (["paddingLeft", "paddingRight"], .number)
  | .nativeScript, .paddingVertical, _ => (["paddingTop", "paddingBottom"], .number)
  | .nativeScript, .backgroundColor, _ => (["backgroundColor"], .color)
  | .nativeScript, .cornerRadius, _ => (["borderRadius"], .number)
  | .nativeScript, .visible, _ => (["visibility"], .visibility)
  | .nativeScript, .color, .image => (["tintColor"], .color)
  | .nativeScript, .color, .divider => (["backgroundColor"], .color)
  | .nativeScript, .color, _ => (["color"], .color)
  | .nativeScript, .fontSize, _ => (["fontSize"], .number)
  | .nativeScript, .fontWeight, _ => (["fontWeight"], .fontWeight)
  | .nativeScript, .maxLines, _ => (["maxLines"], .number)
  | _, _, _ => ([], .text)

def fillProperty : ViewTarget → Axis → String × String
  | .html, .vertical => ("style:height", "100%")
  | .html, .horizontal => ("style:width", "100%")
  | .nativeScript, .vertical => ("verticalAlignment", "stretch")
  | .nativeScript, .horizontal => ("horizontalAlignment", "stretch")

def textAlignProperty : ViewTarget → String
  | .html => "style:text-align"
  | .nativeScript => "textAlignment"

/-- The property for the alignment of children, and whether it is set on the children. -/
def alignmentProperty : ViewTarget → Flow → Axis → String × Bool
  | .nativeScript, _, .horizontal => ("horizontalAlignment", true)
  | .nativeScript, _, .vertical => ("verticalAlignment", true)
  | .html, .vertical, .horizontal => ("style:align-items", false)
  | .html, .horizontal, .vertical => ("style:align-items", false)
  | .html, .vertical, .vertical => ("style:justify-content", false)
  | .html, .horizontal, .horizontal => ("style:justify-content", false)
  | .html, .overlay, .horizontal => ("style:justify-items", false)
  | .html, .overlay, .vertical => ("style:align-items", false)

def gapPlace : ViewTarget → Flow → GapPlace
  | .html, _ => .container "style:gap"
  | .nativeScript, .horizontal => .following "marginLeft"
  | .nativeScript, _ => .following "marginTop"

def textProperty : ViewTarget → String
  | .html => "textContent"
  | .nativeScript => "text"

def lengthEncoding : ViewTarget → Encoding
  | .html => .px
  | .nativeScript => .number

def extentProperty : ViewTarget → Axis → String
  | .html, .horizontal => "style:width"
  | .html, .vertical => "style:height"
  | .nativeScript, .horizontal => "width"
  | .nativeScript, .vertical => "height"

def flexibleSpacer : ViewTarget → List (String × String)
  | .html => [("style:flex", "1")]
  | .nativeScript => []

/-- The native form of a value; a value that does not fit has none. -/
def encode (target : ViewTarget) (style : Style) (v : Value) : Encoding → Option String
  | .number => v.number?.map showNumber
  | .px => v.number?.map fun x => showNumber x ++ "px"
  | .color => v.color?.map Color.toHex
  | .text => some v.display
  | .fontWeight =>
      let weight := match v with
        | .bool b => some (FontWeight.ofBool b)
        | .string s => FontWeight.ofKeyword? s
        | _ => none
      weight.bind (style.fontWeight? target.platform)
  | .visibility => some (if v.truthy then "visible" else "collapse")
  | .hidden => if v.truthy then none else some ""

end ViewTarget

end Widgetry
