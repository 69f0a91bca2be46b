import Widgetry.Source.Sheet

/-!
# Emissions

The sheets of elements are emitted one after the other. The variables of the items at hand are kept on
a stack, that of the innermost loop on top. In either language an element is set on its own first,
then the children that it shows are emitted; what the languages differ in is a dialect.
-/

namespace Widgetry.Source

/-- A step that may fail; in either case it leaves a stack of variables behind. -/
abbrev Emission := ExceptT Error (StateM (List String))

namespace Emission

variable {α : Type}

/-- A step with a variable on top of the stack, which is taken off also if the step fails. -/
def within (name : String) (x : Emission α) : Emission α := ExceptT.mk do
  modify (name :: ·)
  let result ← x.run
  modify List.tail
  return result

/-- A step for the children of a kind; a loop puts its variable on the stack for them. -/
def inKind (k : Kind) (x : Emission α) : Emission α := do
  if k = .forEach then within (itemVariable (← get).length) x else x

/-- What is emitted outside all loops. -/
def start (x : Emission α) : Except Error α := (x.run.run ["data"]).1

end Emission

/-- An element apart from its children: how they flow, what stands between two of them, and what is put
around them. -/
structure Setting where
  flow : Flow
  between : List Directive
  around : Sheet → Sheet

/-- The setting of an element that shows no children. -/
def Setting.leaf (sheet : Sheet) : Setting := ⟨.overlay, [], fun _ => sheet⟩

/-- What a language makes of the elements of a layout, told the stack of variables. An element is told
something by what is around it: `outer` if this is a layout, `inner` if it is an element. -/
structure Dialect (σ : Type) where
  language : Language
  platform : Platform
  inner : σ
  outer : Layout → σ
  setting : Env → List String → Flow → σ → Element → List (Modifier Code) → Except Error Setting
  part : SizeClass → Sheet → Sheet

namespace Dialect

variable {σ : Type} (D : Dialect σ)

mutual

def emit (env : Env) (flow : Flow) (told : σ) : Element → Emission Sheet
  | ⟨kind, id, properties, children, place⟩ => do
      let e : Element := ⟨kind, id, properties, children, place⟩
      let stack ← get
      let mods ← modifierCodes D.language env (stack.headD "data") e
      let setting ← D.setting env stack flow told e mods
      let body ← Emission.inKind kind (emitFirst env setting.flow setting.between true
        (kind.showing children.length) children)
      return Sheet.calling (modifierUses mods) ++ setting.around body

/-- Emits a number of the first children, with what stands between them. -/
def emitFirst (env : Env) (flow : Flow) (between : List Directive) (first : Bool) :
    Nat → List Element → Emission Sheet
  | 0, _ => pure (.plain [])
  | _ + 1, [] => pure (.plain [])
  | n + 1, e :: es => do
      let sheet ← emit env flow D.inner e
      let rest ← emitFirst env flow between false n es
      return Sheet.plain (if first then [] else between) ++ sheet ++ rest

end

def emitRoot (style : Style) (l : Layout) (s : SizeClass) : Emission Sheet :=
  D.emit ⟨style, D.platform, s.size⟩ .overlay (D.outer l) l.root

def emitSizes (style : Style) (l : Layout) : List SizeClass → Emission Sheet
  | [] => pure (.plain [])
  | s :: rest => do
      let body ← D.emitRoot style l s
      let sheets ← emitSizes style l rest
      return D.part s body ++ sheets

end Dialect

end Widgetry.Source
