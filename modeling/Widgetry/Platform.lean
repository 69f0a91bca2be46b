/-!
# Target platforms

Two platforms get generated sources, two are interpreted into view trees.
-/

namespace Widgetry

inductive Platform where
  | glance
  | swiftUI
  | nativeScript
  | html
deriving DecidableEq, Repr, Ord

namespace Platform

def all : List Platform := [.glance, .swiftUI, .nativeScript, .html]

def name : Platform → String
  | .glance => "glance"
  | .swiftUI => "swiftui"
  | .nativeScript => "nativescript"
  | .html => "html"

def ofName? (s : String) : Option Platform := all.find? (·.name == s)

end Platform

inductive SourceTarget where
  | glance
  | swiftUI
deriving DecidableEq, Repr

namespace SourceTarget

def all : List SourceTarget := [.glance, .swiftUI]

def platform : SourceTarget → Platform
  | .glance => .glance
  | .swiftUI => .swiftUI

end SourceTarget

inductive ViewTarget where
  | nativeScript
  | html
deriving DecidableEq, Repr

def ViewTarget.platform : ViewTarget → Platform
  | .nativeScript => .nativeScript
  | .html => .html

structure Size where
  width : Float
  height : Float

def Size.area (s : Size) : Float := s.width * s.height

end Widgetry
