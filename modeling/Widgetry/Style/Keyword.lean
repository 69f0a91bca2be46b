/-!
# Style keywords
-/

namespace Widgetry

inductive Alignment where
  | start
  | center
  | stop
  | stretch
deriving DecidableEq, Repr, Ord

namespace Alignment

def all : List Alignment := [.start, .center, .stop, .stretch]

def name : Alignment → String
  | .start => "start"
  | .center => "center"
  | .stop => "end"
  | .stretch => "stretch"

def ofName? (s : String) : Option Alignment := all.find? (·.name == s)

/-- The alignment of a keyword in a layout, which may also name a side. -/
def ofKeyword? (s : String) : Option Alignment :=
  if s = "start" ∨ s = "left" ∨ s = "top" ∨ s = "leading" then some .start
  else if s = "center" then some .center
  else if s = "end" ∨ s = "right" ∨ s = "bottom" ∨ s = "trailing" then some .stop
  else if s = "stretch" then some .stretch
  else none

end Alignment

inductive Axis where
  | horizontal
  | vertical
deriving DecidableEq, Repr

namespace Axis

def all : List Axis := [.horizontal, .vertical]

def name : Axis → String
  | .horizontal => "horizontal"
  | .vertical => "vertical"

end Axis

inductive FontWeight where
  | normal
  | medium
  | bold
deriving DecidableEq, Repr, Ord

namespace FontWeight

def all : List FontWeight := [.normal, .medium, .bold]

def name : FontWeight → String
  | .normal => "normal"
  | .medium => "medium"
  | .bold => "bold"

def title : FontWeight → String
  | .normal => "Normal"
  | .medium => "Medium"
  | .bold => "Bold"

def ofName? (s : String) : Option FontWeight := all.find? (·.name == s)

def ofKeyword? (s : String) : Option FontWeight :=
  if s = "normal" ∨ s = "regular" then some .normal
  else if s = "medium" then some .medium
  else if s = "bold" then some .bold
  else none

def ofBool (b : Bool) : FontWeight := if b then .bold else .normal

end FontWeight

end Widgetry
