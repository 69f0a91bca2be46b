import Widgetry.View.Build

/-!
# Renderings

A rendering is a view tree with what it needs to follow its context. An update writes the properties
that changed and builds the children of the slots whose key changed.
-/

namespace Widgetry

structure Renderer where
  target : ViewTarget
  style : Style

structure Rendering where
  layout : Layout
  size : Size
  root : Nat
  tree : ViewTree
  retained : Retained
  context : Context

structure UpdateStats where
  changed : Nat
  evaluated : Nat
  writes : Nat
  rebuilt : Nat
deriving DecidableEq, Repr

structure Progress where
  tree : ViewTree
  log : List ViewOp
  evaluated : Nat
  rebuilt : Nat

/-- What an update leaves behind, also when it fails. -/
structure Updated where
  rendering : Rendering
  log : List ViewOp
  result : Except Error UpdateStats

namespace Rendering

def boundCount (r : Rendering) : Nat := r.retained.boundCount

def missing (r : Rendering) : List String := r.retained.missing r.context

end Rendering

def touches (deps changed : List DataPath) : Bool :=
  deps.any fun d => changed.any fun c => c.overlaps d

namespace Progress

def perform (op : ViewOp) : StateM Progress Unit :=
  modify fun p => { p with tree := p.tree.apply op, log := op :: p.log }

def write (v : Nat) (name : String) : Option String → StateM Progress Unit
  | some value => perform (.set v name value)
  | none => perform (.remove v name)

def refreshProperty (scene : Scene) (changed : List DataPath) (b : BoundProperty) :
    StateM Progress BoundProperty :=
  if touches b.formula.deps changed then do
    modify fun p => { p with evaluated := p.evaluated + 1 }
    let next := scene.encoded? b.formula b.encoding
    if next = b.last then return b
    b.views.forM fun v => b.names.forM fun name => write v name next
    return { b with last := next }
  else return b

def rebuild (scene : Scene) (site : SlotSite) (key : SlotKey) (e : Element) :
    StateM Progress (Slot × Option Error) := do
  perform (.clear site.view)
  let p ← get
  let (result, c) := (Build.fill scene site key e.children).run ⟨p.tree, p.log, .empty⟩
  let s : Slot := ⟨site, key, c.retained.properties, c.retained.slots⟩
  match result with
  | .ok () => do
      set { p with tree := c.tree, log := c.log, rebuilt := p.rebuilt + 1 }
      return (s, none)
  | .error e => do
      set { p with tree := c.tree, log := c.log }
      return (s, some e)

mutual

def refreshSlot (scene : Scene) (changed : List DataPath) (root : Element) :
    Slot → StateM Progress (Slot × Option Error)
  | ⟨site, key, properties, slots⟩ => do
      let next := if touches site.kind.deps changed then scene.key site.kind else key
      if next = key then do
        let properties ← properties.mapM (refreshProperty scene changed)
        let (slots, error) ← refreshSlots scene changed root slots
        return (⟨site, key, properties, slots⟩, error)
      else
        match root.descendant? site.element with
        | some e => rebuild scene site next e
        | none => return (⟨site, key, properties, slots⟩, some (.schema .root .handleMismatch))

/-- Brings slots up to date, as far as the first one that fails. -/
def refreshSlots (scene : Scene) (changed : List DataPath) (root : Element) :
    List Slot → StateM Progress (List Slot × Option Error)
  | [] => return ([], none)
  | s :: ss => do
      let (s, error) ← refreshSlot scene changed root s
      match error with
      | some e => return (s :: ss, some e)
      | none => do
          let (ss, error) ← refreshSlots scene changed root ss
          return (s :: ss, error)

end

def refresh (scene : Scene) (changed : List DataPath) (root : Element) (r : Retained) :
    StateM Progress (Retained × Option Error) := do
  let properties ← r.properties.mapM (refreshProperty scene changed)
  let (slots, error) ← refreshSlots scene changed root r.slots
  return (⟨properties, slots⟩, error)

end Progress

namespace Renderer

def buildRoot (scene : Scene) (l : Layout) : Build Nat := do
  let root ← Build.element scene [] [] .overlay [] l.root
  match l.rootPadding? with
  | some p =>
      let (names, encoding) := scene.target.outputs .padding l.root.kind
      match scene.target.encode scene.style (.number p) encoding with
      | some value => Build.setEach [root] names value
      | none => pure ()
  | none => pure ()
  return root

def render (r : Renderer) (l : Layout) (size : Size) (context : Context) :
    Except Error (Rendering × List ViewOp) :=
  match (buildRoot ⟨r.target, r.style, size, context⟩ l).run ⟨.empty, [], .empty⟩ with
  | (.ok root, c) => .ok (⟨l, size, root, c.tree, c.retained, context⟩, c.log.reverse)
  | (.error e, _) => .error (e.inWidget l.name)

/-- Brings a rendering up to date with a context. When that fails what was changed before stays, and
the rendering keeps its context. -/
def update (r : Renderer) (rendering : Rendering) (context : Context) : Updated :=
  let changed := rendering.context.diff context
  let scene : Scene := ⟨r.target, r.style, rendering.size, context⟩
  let ((retained, error), p) :=
    if changed.isEmpty then ((rendering.retained, none), (⟨rendering.tree, [], 0, 0⟩ : Progress))
    else (Progress.refresh scene changed rendering.layout.root rendering.retained).run
      ⟨rendering.tree, [], 0, 0⟩
  let log := p.log.reverse
  match error with
  | none =>
      ⟨{ rendering with tree := p.tree, retained := retained, context := context }, log,
        .ok ⟨changed.length, p.evaluated, log.countP ViewOp.isWrite, p.rebuilt⟩⟩
  | some e =>
      ⟨{ rendering with tree := p.tree, retained := retained }, log,
        .error (e.inWidget rendering.layout.name)⟩

end Renderer

end Widgetry
