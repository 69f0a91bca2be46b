import Widgetry.Text.Basic

/-!
# Bindings

A binding names a place in the data by a scope and a path below it. It is written with dots:
`item.hours.0.temperature`, `size.width`, `config.settings.unit`.
-/

namespace Widgetry

/-- Where a binding starts: the item at hand, the data, the canvas size or the settings. -/
inductive Scope where
  | item
  | data
  | size
  | settings
deriving DecidableEq, Repr

inductive Segment where
  | key (name : String)
  | index (i : Nat)
deriving DecidableEq, Repr

def Segment.render : Segment → String
  | .key name => name
  | .index i => toString i

structure Binding where
  scope : Scope
  segments : List Segment
deriving DecidableEq, Repr

inductive SizeAxis where
  | width
  | height
deriving DecidableEq, Repr

namespace Binding

def setting (key : String) : Binding := ⟨.settings, [.key key]⟩

def scopeText : Scope → String
  | .item => "item"
  | .data => "data"
  | .size => "size"
  | .settings => "config.settings"

def renderSegments (segments : List Segment) : String :=
  String.join (segments.map fun s => "." ++ s.render)

def render (b : Binding) : String := scopeText b.scope ++ renderSegments b.segments

/-- A run of digits within 64 bits is an index, an identifier is a key. -/
def segment? (cs : List Char) : Option Segment :=
  if !cs.isEmpty && cs.all Char.isDigit then
    let n := cs.foldl (fun n c => 10 * n + (c.toNat - '0'.toNat)) 0
    if n < UInt64.size then some (.index n) else none
  else if Text.isIdentifierList cs then some (.key (String.ofList cs))
  else none

def scope? (cs : List Char) : Option Scope :=
  if cs = "item".toList then some .item
  else if cs = "data".toList then some .data
  else if cs = "size".toList then some .size
  else none

def ofPieces? : List (List Char) → Option Binding
  | scope :: piece :: pieces => do
      let scope ← scope? scope
      let segments ← (piece :: pieces).mapM segment?
      return ⟨scope, segments⟩
  | _ => none

def parse? (s : String) : Option Binding := ofPieces? (Text.splitOn '.' s.toList)

def settingKey? (s : String) : Option String :=
  match Text.dropPrefix? "config.settings.".toList s.toList with
  | some key => if Text.isIdentifierList key then some (String.ofList key) else none
  | none => none

def parsePath? (s : String) : Option Binding :=
  match settingKey? s with
  | some key => some (setting key)
  | none => parse? s

/-- Reads a binding of any scope; what is none is looked for below the item. -/
def parseLoose? (s : String) : Option Binding :=
  (parsePath? s).or (parse? ("item." ++ s))

def axis? (b : Binding) : Option SizeAxis :=
  match b.scope, b.segments with
  | .size, [.key name] =>
      if name = "width" then some .width
      else if name = "height" then some .height
      else none
  | _, _ => none

/-- Whether this is a size binding that names no axis. -/
def isStraySize (b : Binding) : Bool := b.scope == .size && b.axis?.isNone

end Binding

end Widgetry
