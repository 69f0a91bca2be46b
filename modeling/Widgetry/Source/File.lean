import Widgetry.Source.KotlinFile
import Widgetry.Source.SwiftFile

/-!
# Source files
-/

namespace Widgetry.Source

def defaultPackage : String := "com.akylas.weather.widgets.generated"

structure File where
  name : String
  contents : String
deriving DecidableEq, Repr

namespace File

def nameOf (widget : String) : SourceTarget → String
  | .glance => widget ++ "Content.generated.kt"
  | .swiftUI => widget ++ "View.generated.swift"

def text (style : Style) (package : String) (l : Layout) : SourceTarget → Except Error String
  | .glance => Kotlin.file style package l
  | .swiftUI => Swift.file style l

def generate (style : Style) (package : String) (target : SourceTarget) (l : Layout) :
    Except Error File :=
  match text style package l target with
  | .ok contents => .ok ⟨nameOf l.name target, contents⟩
  | .error e => .error (e.inWidget l.name)

end File

end Widgetry.Source
