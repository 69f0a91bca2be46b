import Widgetry.Layout
import Widgetry.Style.Modifier
import Widgetry.View.Retained

/-!
# Building views

Builds the view of an element and all below it. What can change later is retained on the way; when an
element is refused, what was built before it stays.
-/

namespace Widgetry

structure Scene where
  target : ViewTarget
  style : Style
  size : Size
  context : Context

namespace Scene

def env (s : Scene) : Env := ⟨s.style, s.target.platform, s.size⟩

/-- The value of a formula; a fault counts as false where a flag is wanted. -/
def value? (s : Scene) (f : Formula) (flag : Bool) : Option Value :=
  match f.eval s.context with
  | .ok v => some v
  | .error _ => if flag then some (.bool false) else none

def encoded? (s : Scene) (f : Formula) (encoding : Encoding) : Option String :=
  (s.value? f encoding.isFlag).bind fun v => s.target.encode s.style v encoding

def holds (s : Scene) (f : Formula) : Bool := ((s.value? f true).map Value.truthy).getD false

def itemCount (s : Scene) (items : Option DataPath) : Nat :=
  let found := (items.filter (·.root == .data)).bind s.context.lookup?
  ((found.bind Json.array?).map List.length).getD 0

def key (s : Scene) : SlotKind → SlotKey
  | .forEach items limit _ =>
      let n := s.itemCount items
      .count ((limit.map (min n)).getD n)
  | .conditional condition => .branch (s.holds condition)

end Scene

/-- A view tree with the operations that changed it, the last one first, and what is retained. -/
structure Canvas where
  tree : ViewTree
  log : List ViewOp
  retained : Retained

def Canvas.perform (c : Canvas) (op : ViewOp) : Canvas :=
  { c with tree := c.tree.apply op, log := op :: c.log }

abbrev Build := ExceptT Error (StateM Canvas)

namespace Build

def perform (op : ViewOp) : Build Unit := modify (·.perform op)

def check {α : Type} : Except Error α → Build α
  | .ok a => pure a
  | .error e => throw e

def create (tag : String) : Build Nat := do
  let v := (← get).tree.size
  perform (.create v tag)
  return v

def setAll (v : Nat) (properties : List (String × String)) : Build Unit :=
  properties.forM fun p => perform (.set v p.1 p.2)

def setEach (views : List Nat) (names : List String) (value : String) : Build Unit :=
  views.forM fun v => names.forM fun name => perform (.set v name value)

def retain (p : BoundProperty) : Build Unit :=
  modify fun c =>
    { c with retained := { c.retained with properties := c.retained.properties ++ [p] } }

def follow (scene : Scene) (views : List Nat) (names : List String) (encoding : Encoding)
    (f : Formula) : Build Unit :=
  if names.isEmpty then pure ()
  else do
    let last := scene.encoded? f encoding
    match last with
    | some value => setEach views names value
    | none => pure ()
    if f.deps.isEmpty then pure () else retain ⟨views, names, encoding, f, last⟩

def gapOnContainer (scene : Scene) (v : Nat) (flow : Flow) : Option Formula → Build Unit
  | none => pure ()
  | some f =>
      match scene.target.gapPlace flow with
      | .container name => follow scene [v] [name] scene.target.lengthEncoding f
      | .following _ => pure ()

def gapOnChildren (scene : Scene) (children : List Nat) (flow : Flow) :
    Option Formula → Build Unit
  | none => pure ()
  | some f =>
      match scene.target.gapPlace flow with
      | .container _ => pure ()
      | .following name =>
          if children.length > 1 then
            follow scene children.tail [name] scene.target.lengthEncoding f
          else pure ()

/-- Builds a slot. If its children cannot be built the slot is not kept. -/
def slot (site : SlotSite) (key : SlotKey) (fill : Build Unit) : Build Unit :=
  ExceptT.mk fun (c : Canvas) =>
    let outer := c.retained
    match fill.run { c with retained := .empty } with
    | (.ok (), c) =>
        let s : Slot := ⟨site, key, c.retained.properties, c.retained.slots⟩
        (.ok (), { c with retained := ⟨outer.properties, outer.slots ++ [s]⟩ })
    | (.error e, c) => (.error e, { c with retained := outer })

def formula? (scene : Scene) (item : List Segment) (e : Element) (p : Property)
    (type : ValueType) : Build (Option Formula) :=
  match e.get? p with
  | none => pure none
  | some v => do
      let t ← check (Elaboration.property scene.env type (e.place.field p.name) v)
      return some ⟨item, t⟩

/-- Gives the view of a container what it always has; returns the view for the children. -/
def content (scene : Scene) (kind : Kind) (flow : Flow) (v : Nat) : Build Nat :=
  match kind with
  | .column | .row | .stack | .forEach => do
      setAll v (scene.target.containerProperties flow)
      return v
  | .scrollView => do
      setAll v (scene.target.scrollProperties flow)
      let inner ← create scene.target.scrollContentTag
      setAll inner (scene.target.containerProperties flow)
      perform (.append v inner)
      return inner
  | .conditional => do
      setAll v scene.target.wrapperProperties
      return v
  | _ => pure v

def align (scene : Scene) (around : Nat) (flow : Flow) (axis : Axis) (value : String) :
    Build (List (String × String)) :=
  match scene.target.alignmentProperty flow axis with
  | (name, true) => pure [(name, value)]
  | (name, false) => do
      perform (.set around name value)
      return []

/-- Applies a modifier to a view; returns what each child gets from it. -/
def applyModifier (scene : Scene) (item : List Segment) (kind : Kind) (v around : Nat)
    (flow : Flow) (m : Modifier Term) : Build (List (String × String)) :=
  match m.value with
  | .flag => do
      let axis := if m.property = .fillHeight then Axis.vertical else Axis.horizontal
      let (name, value) := scene.target.fillProperty axis
      perform (.set v name value)
      return []
  | .native value =>
      match m.property with
      | .alignment => align scene around flow .horizontal value
      | .crossAlignment => align scene around flow .vertical value
      | .textAlign => do
          perform (.set v scene.target.textAlignProperty value)
          return []
      | p => do
          setEach [v] (scene.target.outputs p kind).1 value
          return []
  | .computed t =>
      if m.property = .spacing then pure []
      else do
        let (names, encoding) := scene.target.outputs m.property kind
        follow scene [v] names encoding ⟨item, t⟩
        return []

def applyModifiers (scene : Scene) (item : List Segment) (kind : Kind) (v around : Nat)
    (flow : Flow) : List (Modifier Term) → Build (List (String × String))
  | [] => pure []
  | m :: ms => do
      let first ← applyModifier scene item kind v around flow m
      let rest ← applyModifiers scene item kind v around flow ms
      return first ++ rest

def label (scene : Scene) (item : List Segment) (e : Element) (v : Nat) : Build Unit := do
  match ← formula? scene item e .text .string with
  | some f => follow scene [v] [scene.target.textProperty] .text f
  | none => pure ()

def extent (scene : Scene) (v : Nat) (axis : Axis) (f : Formula) : Build Unit :=
  follow scene [v] [scene.target.extentProperty axis] scene.target.lengthEncoding f

def image (scene : Scene) (item : List Segment) (e : Element) (v : Nat) : Build Unit := do
  match ← formula? scene item e .src .string with
  | some f => follow scene [v] ["src"] .text f
  | none => pure ()
  match ← formula? scene item e .size .number with
  | some f => do
      extent scene v .horizontal f
      extent scene v .vertical f
  | none => pure ()

/-- A spacer has its size along the flow around it, or takes what is left. -/
def spacer (scene : Scene) (item : List Segment) (around : Flow) (e : Element) (v : Nat) :
    Build Unit := do
  match ← formula? scene item e .size .number with
  | some f => do
      if around = .vertical then pure () else extent scene v .horizontal f
      if around = .horizontal then pure () else extent scene v .vertical f
  | none => setAll v scene.target.flexibleSpacer

def divider (scene : Scene) (item : List Segment) (around : Flow) (mods : List (Modifier Term))
    (e : Element) (v : Nat) : Build Unit := do
  let along := if around = .horizontal then Axis.horizontal else Axis.vertical
  let across := if around = .horizontal then Axis.vertical else Axis.horizontal
  setAll v [scene.target.fillProperty across]
  let thickness ← formula? scene item e .thickness .number
  extent scene v along (thickness.getD ⟨item, .literal (.number 1.0)⟩)
  if (Modifier.computed? mods .color).isSome then pure ()
  else do
    let (names, encoding) := scene.target.outputs .color .divider
    match scene.target.encode scene.style (.color .divider) encoding with
    | some value => setEach [v] names value
    | none => pure ()

def items? (item : List Segment) (e : Element) : Option DataPath :=
  match e.get? .items with
  | some (.binding b) => b.absolute? item
  | _ => none

mutual

def element (scene : Scene) (path : List Nat) (item : List Segment) (around : Flow)
    (inherited : List (String × String)) : Element → Build Nat
  | ⟨kind, id, properties, children, place⟩ => do
      let e : Element := ⟨kind, id, properties, children, place⟩
      let mods ← check (Modifier.build scene.env e)
      let v ← create (scene.target.tag kind)
      setAll v inherited
      let flow := e.flow around
      let inner ← content scene kind flow v
      let aligned ← applyModifiers scene item kind v inner flow mods
      let handed := (if kind = .stack then scene.target.overlayChildProperties else []) ++ aligned
      let spacing := (Modifier.computed? mods .spacing).map (Formula.mk item)
      match kind with
      | .column | .row | .stack | .scrollView => do
          let views ← elements scene path item flow handed inner 0 children
          gapOnContainer scene inner flow spacing
          gapOnChildren scene views flow spacing
      | .label => label scene item e v
      | .image => image scene item e v
      | .spacer => spacer scene item around e v
      | .divider => divider scene item around mods e v
      | .forEach => do
          gapOnContainer scene v flow spacing
          let site : SlotSite :=
            ⟨v, path, item, flow, handed, .forEach (items? item e) e.limit? spacing⟩
          slot site (scene.key site.kind) (fill scene site (scene.key site.kind) children)
      | .conditional => do
          let condition ← formula? scene item e .condition .bool
          let site : SlotSite :=
            ⟨v, path, item, around, inherited,
              .conditional (condition.getD ⟨item, .literal (.bool false)⟩)⟩
          slot site (scene.key site.kind) (fill scene site (scene.key site.kind) children)
      return v

def elements (scene : Scene) (path : List Nat) (item : List Segment) (flow : Flow)
    (inherited : List (String × String)) (parent : Nat) (i : Nat) :
    List Element → Build (List Nat)
  | [] => pure []
  | e :: es => do
      let v ← element scene (path ++ [i]) item flow inherited e
      perform (.append parent v)
      let vs ← elements scene path item flow inherited parent (i + 1) es
      return v :: vs

def fill (scene : Scene) (site : SlotSite) (key : SlotKey) : List Element → Build Unit
  | [] => pure ()
  | first :: rest =>
      match site.kind, key with
      | .forEach (some items) _ spacing, .count n => do
          let views ← (List.range n).mapM fun i => do
            let v ← element scene (site.element ++ [0]) (items.segments ++ [.index i]) site.flow
              site.inherited first
            perform (.append site.view v)
            return v
          gapOnChildren scene views site.flow spacing
      | .conditional _, .branch true => do
          let v ← element scene (site.element ++ [0]) site.item site.flow site.inherited first
          perform (.append site.view v)
      | .conditional _, .branch false =>
          match rest with
          | [] => pure ()
          | second :: _ => do
              let v ← element scene (site.element ++ [1]) site.item site.flow site.inherited second
              perform (.append site.view v)
      | _, _ => pure ()

end

end Build

end Widgetry
