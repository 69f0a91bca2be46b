/-!
# Locations in a document

The steps from the root of a document to one of its values.
-/

namespace Widgetry

inductive Step where
  | field (name : String)
  | index (i : Nat)
deriving DecidableEq, Repr

structure Location where
  steps : List Step
deriving DecidableEq, Repr

namespace Location

def root : Location := ⟨[]⟩

def field (l : Location) (name : String) : Location := ⟨l.steps ++ [.field name]⟩

def index (l : Location) (i : Nat) : Location := ⟨l.steps ++ [.index i]⟩

def depth (l : Location) : Nat := l.steps.length

def renderStep : Step → String
  | .field name => "." ++ name
  | .index i => "[" ++ toString i ++ "]"

def render (l : Location) : String := "$" ++ String.join (l.steps.map renderStep)

end Location

end Widgetry
