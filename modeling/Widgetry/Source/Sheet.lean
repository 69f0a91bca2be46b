import Widgetry.Element.Flow
import Widgetry.Fingerprint
import Widgetry.Layout
import Widgetry.Source.Code
import Widgetry.Source.Directive
import Widgetry.Style.Modifier

/-!
# Sheets

A sheet is a part of a source file: directives and the helpers that their text calls.
-/

namespace Widgetry.Source

structure Sheet where
  directives : List Directive
  uses : List Helper
deriving DecidableEq, Repr

namespace Sheet

def append (a b : Sheet) : Sheet := ⟨a.directives ++ b.directives, a.uses ++ b.uses⟩

instance : Append Sheet := ⟨append⟩

/-- Directives whose text calls no helper that is not counted elsewhere. -/
def plain (directives : List Directive) : Sheet := ⟨directives, []⟩

/-- Helpers that are called without text of their own. -/
def calling (uses : List Helper) : Sheet := ⟨[], uses⟩

end Sheet

def itemVariable (depth : Nat) : String :=
  if depth = 0 then "data" else "item" ++ toString depth

def indexVariable (depth : Nat) : String := "index" ++ toString depth

/-- The code of a property of an element; `item` is the variable of the item at hand. -/
def propertyCode (lang : Language) (env : Env) (item : String) (e : Element) (p : Property)
    (type : ValueType) : Except Error (Option Code) :=
  match e.get? p with
  | none => .ok none
  | some v => do
      let t ← Elaboration.property env type (e.place.field p.name) v
      return some (lang.term item t)

def usesOf (c : Option Code) : List Helper := (c.map Code.uses).getD []

def modifierCodes (lang : Language) (env : Env) (item : String) (e : Element) :
    Except Error (List (Modifier Code)) := do
  let mods ← Modifier.build env e
  return mods.map (Modifier.map (lang.term item))

/-- The helpers of all modifiers, also of those whose text is not used. -/
def modifierUses (mods : List (Modifier Code)) : List Helper :=
  mods.flatMap fun m =>
    match m.value with
    | .computed c => c.uses
    | _ => []

def computedText? (mods : List (Modifier Code)) (p : Property) : Option String :=
  (Modifier.computed? mods p).map Code.text

def itemsCode (lang : Language) (item : String) (e : Element) : Code :=
  match e.get? .items with
  | some (.binding b) => lang.lookup item b
  | _ => .plain lang.nothing

def header (l : Layout) : List String :=
  ["// Auto-generated from " ++ l.name ++ ".json - DO NOT EDIT MANUALLY",
   "// Generator: widgetc 0.1.0",
   "// Layout fingerprint: " ++ Fingerprint.render l.fingerprint]

def unlines (lines : List String) : String := String.join (lines.map (· ++ "\n"))

def fileText (l : Layout) (preamble : List String) (directives : List Directive) : String :=
  unlines (header l) ++ (unlines preamble ++ render directives)

end Widgetry.Source
