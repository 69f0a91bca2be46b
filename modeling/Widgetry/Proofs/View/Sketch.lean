import Widgetry.Proofs.Alignment
import Widgetry.Proofs.View.Replay
import Widgetry.View.Build

/-!
# Sketches

A sketch is the plan of a part of a view tree: for every element met, the views it has, what they are
given, and for a slot the key and the properties retained. A frame is the part of it that does not
depend on the data. Views outside the slots of a sketch are its ground; strokes are what these views
are given, in order.
-/

namespace Widgetry

open List

/-- What views are built for, apart from the data. -/
structure Stage where
  target : ViewTarget
  style : Style
  size : Size

def Stage.env (g : Stage) : Env := ⟨g.style, g.target.platform, g.size⟩

def Scene.stage (s : Scene) : Stage := ⟨s.target, s.style, s.size⟩

/-- An element as it is met: where it stands and what it gets from around it. -/
structure Occurrence where
  path : List Nat
  item : List Segment
  around : Flow
  inherited : List (String × String)
  element : Element

/-- What a view is given: a native property, or native properties that follow a formula. -/
inductive Mark where
  | put (name value : String)
  | follow (names : List String) (encoding : Encoding) (formula : Formula)

/-- A mark with the views it is made on. -/
structure Stroke where
  views : List Nat
  mark : Mark

/-- What an element comes to whatever the data is. A mark with `true` is made on the view around the
children, which is another one when there is a content view. -/
structure Frame where
  tag : String
  base : List (String × String)
  content : Option (String × List (String × String))
  marks : List (Bool × Mark)
  around : Option Mark
  between : Option Mark
  handed : List (String × String)
  slot : Option SlotKind

inductive Sketch where
  | plain (view : Nat) (inner : Option Nat) (frame : Frame) (kids : List Sketch)
  | slot (frame : Frame) (site : SlotSite) (key : SlotKey) (properties : List BoundProperty)
      (kids : List Sketch)

/-! ## Frames -/

/-- Whether the children are built in any case. -/
def Kind.stacks : Kind → Bool
  | .column | .row | .stack | .scrollView => true
  | _ => false

namespace Stage

def base (g : Stage) (flow : Flow) : Kind → List (String × String)
  | .column | .row | .stack | .forEach => g.target.containerProperties flow
  | .scrollView => g.target.scrollProperties flow
  | .conditional => g.target.wrapperProperties
  | _ => []

def content (g : Stage) (flow : Flow) : Kind → Option (String × List (String × String))
  | .scrollView => some (g.target.scrollContentTag, g.target.containerProperties flow)
  | _ => none

/-- The mark of an alignment, or what each child gets from it. -/
def aligned (g : Stage) (flow : Flow) (axis : Axis) (value : String) :
    List (Bool × Mark) × List (String × String) :=
  match g.target.alignmentProperty flow axis with
  | (name, true) => ([], [(name, value)])
  | (name, false) => ([(true, .put name value)], [])

/-- The marks of a modifier, and what each child gets from it. -/
def modified (g : Stage) (item : List Segment) (kind : Kind) (flow : Flow) (m : Modifier Term) :
    List (Bool × Mark) × List (String × String) :=
  match m.value with
  | .flag =>
      let axis := if m.property = .fillHeight then Axis.vertical else Axis.horizontal
      ([(false, .put (g.target.fillProperty axis).1 (g.target.fillProperty axis).2)], [])
  | .native value =>
      match m.property with
      | .alignment => g.aligned flow .horizontal value
      | .crossAlignment => g.aligned flow .vertical value
      | .textAlign => ([(false, .put g.target.textAlignProperty value)], [])
      | p => ((g.target.outputs p kind).1.map fun name => (false, .put name value), [])
  | .computed t =>
      if m.property = .spacing then ([], [])
      else
        let (names, encoding) := g.target.outputs m.property kind
        ([(false, .follow names encoding ⟨item, t⟩)], [])

def extent (g : Stage) (axis : Axis) (f : Formula) : Mark :=
  .follow [g.target.extentProperty axis] g.target.lengthEncoding f

def gapAround (g : Stage) (flow : Flow) (spacing : Option Formula) : Option Mark :=
  match g.target.gapPlace flow with
  | .container name => spacing.map (.follow [name] g.target.lengthEncoding)
  | .following _ => none

/-- A gap that stands on all children but the first. -/
def gapBetween (g : Stage) (flow : Flow) (spacing : Option Formula) : Option Mark :=
  match g.target.gapPlace flow with
  | .container _ => none
  | .following name => spacing.map (.follow [name] g.target.lengthEncoding)

theorem gapBetween_none (g : Stage) (flow : Flow) : g.gapBetween flow none = none := by
  unfold gapBetween
  cases g.target.gapPlace flow <;> rfl

end Stage

namespace Occurrence

def flow (o : Occurrence) : Flow := o.element.flow o.around

def formula (g : Stage) (o : Occurrence) (p : Property) (type : ValueType) :
    Except Error (Option Formula) :=
  match o.element.get? p with
  | none => .ok none
  | some v =>
      (Elaboration.property g.env type (o.element.place.field p.name) v).map fun t =>
        some ⟨o.item, t⟩

/-- The marks of a kind of element beside those of its modifiers. -/
def own (g : Stage) (o : Occurrence) (mods : List (Modifier Term)) (spacing : Option Formula) :
    Except Error (List Mark) :=
  match o.element.kind with
  | .label => do
      let text ← o.formula g .text .string
      return (text.map (.follow [g.target.textProperty] .text)).toList
  | .image => do
      let src ← o.formula g .src .string
      let size ← o.formula g .size .number
      return (src.map (.follow ["src"] .text)).toList ++
        (size.map fun f => [g.extent .horizontal f, g.extent .vertical f]).getD []
  | .spacer => do
      let size ← o.formula g .size .number
      return match size with
        | some f =>
            (if o.around = .vertical then [] else [g.extent .horizontal f]) ++
              (if o.around = .horizontal then [] else [g.extent .vertical f])
        | none => g.target.flexibleSpacer.map fun p => .put p.1 p.2
  | .divider => do
      let along := if o.around = .horizontal then Axis.horizontal else Axis.vertical
      let across := if o.around = .horizontal then Axis.vertical else Axis.horizontal
      let thickness ← o.formula g .thickness .number
      let (names, encoding) := g.target.outputs .color .divider
      return .put (g.target.fillProperty across).1 (g.target.fillProperty across).2 ::
        g.extent along (thickness.getD ⟨o.item, .literal (.number 1.0)⟩) ::
        (if (Modifier.computed? mods .color).isSome then []
         else match g.target.encode g.style (.color .divider) encoding with
          | some value => names.map fun name => .put name value
          | none => [])
  | .forEach => .ok (g.gapAround o.flow spacing).toList
  | _ => .ok []

def slotKind (g : Stage) (o : Occurrence) (spacing : Option Formula) :
    Except Error (Option SlotKind) :=
  match o.element.kind with
  | .forEach =>
      .ok (some (.forEach (Build.items? o.item o.element) o.element.limit? spacing))
  | .conditional => do
      let condition ← o.formula g .condition .bool
      return some (.conditional (condition.getD ⟨o.item, .literal (.bool false)⟩))
  | _ => .ok none

def handed (g : Stage) (o : Occurrence) (mods : List (Modifier Term)) : List (String × String) :=
  if o.element.kind = .conditional then o.inherited
  else (if o.element.kind = .stack then g.target.overlayChildProperties else []) ++
    mods.flatMap fun m => (g.modified o.item o.element.kind o.flow m).2

/-- The frame that modifiers, own marks and a slot make up. -/
def composed (g : Stage) (o : Occurrence) (mods : List (Modifier Term)) (spacing : Option Formula)
    (own : List Mark) (slot : Option SlotKind) : Frame :=
  let kind := o.element.kind
  { tag := g.target.tag kind
    base := o.inherited ++ g.base o.flow kind
    content := g.content o.flow kind
    marks := (mods.flatMap fun m => (g.modified o.item kind o.flow m).1) ++ own.map (false, ·)
    around := if kind.stacks then g.gapAround o.flow spacing else none
    between := if kind.stacks || kind = .forEach then g.gapBetween o.flow spacing else none
    handed := o.handed g mods
    slot }

/-- The gap that modifiers set between children. -/
def spacing (o : Occurrence) (mods : List (Modifier Term)) : Option Formula :=
  (Modifier.computed? mods .spacing).map (Formula.mk o.item)

def frame (g : Stage) (o : Occurrence) : Except Error Frame := do
  let mods ← Modifier.build g.env o.element
  let own ← o.own g mods (o.spacing mods)
  let slot ← o.slotKind g (o.spacing mods)
  return o.composed g mods (o.spacing mods) own slot

/-- The children of an element that has no slot. -/
def members (o : Occurrence) (f : Frame) : List Occurrence :=
  if o.element.kind.stacks then
    o.element.children.zipIdx.map fun (e, i) => ⟨o.path ++ [i], o.item, o.flow, f.handed, e⟩
  else []

/-- The slot of an element, on a view. -/
def site (o : Occurrence) (f : Frame) (kind : SlotKind) (view : Nat) : SlotSite :=
  ⟨view, o.path, o.item, o.flow, f.handed, kind⟩

end Occurrence

def SlotSite.selected (site : SlotSite) (key : SlotKey) (children : List Element) :
    List Occurrence :=
  match site.kind, key, children with
  | .forEach (some items) _ _, .count n, first :: _ =>
      (List.range n).map fun i =>
        ⟨site.element ++ [0], items.segments ++ [.index i], site.flow, site.inherited, first⟩
  | .conditional _, .branch true, first :: _ =>
      [⟨site.element ++ [0], site.item, site.flow, site.inherited, first⟩]
  | .conditional _, .branch false, _ :: second :: _ =>
      [⟨site.element ++ [1], site.item, site.flow, site.inherited, second⟩]
  | _, _, _ => []

variable {o p : Occurrence} {f : Frame} {s : Scene}

namespace Occurrence

def kids (s : Scene) (o : Occurrence) (f : Frame) : List Occurrence :=
  match f.slot with
  | none => o.members f
  | some kind => (o.site f kind 0).selected (s.key kind) o.element.children

theorem element_mem_of_mem_members (h : p ∈ o.members f) : p.element ∈ o.element.children := by
  unfold members at h
  split at h
  · obtain ⟨⟨e, i⟩, he, rfl⟩ := mem_map.mp h
    exact fst_mem_of_mem_zipIdx he
  · simp at h

end Occurrence

theorem SlotSite.element_mem_of_mem_selected {site : SlotSite} {key : SlotKey}
    {children : List Element} (h : p ∈ site.selected key children) : p.element ∈ children := by
  unfold selected at h
  split at h
  · obtain ⟨i, -, rfl⟩ := mem_map.mp h
    exact mem_cons_self
  · rw [mem_singleton.mp h]
    exact mem_cons_self
  · rw [mem_singleton.mp h]
    exact mem_cons_of_mem _ mem_cons_self
  · simp at h

namespace Occurrence

theorem element_mem_of_mem_kids (h : p ∈ o.kids s f) : p.element ∈ o.element.children := by
  unfold kids at h
  split at h
  · exact element_mem_of_mem_members h
  · exact SlotSite.element_mem_of_mem_selected h

theorem sizeOf_lt_of_mem_kids (h : p ∈ o.kids s f) : sizeOf p.element < sizeOf o.element := by
  have hmem := sizeOf_lt_of_mem (element_mem_of_mem_kids h)
  have he : sizeOf o.element.children < sizeOf o.element := by
    cases o.element
    simp
    omega
  exact Nat.lt_trans hmem he

/-- The error that an element is refused with: its own, or else that of the first child refused. -/
def refusal (s : Scene) (o : Occurrence) : Option Error :=
  match o.frame s.stage with
  | .error e => some e
  | .ok f => (o.kids s f).attach.findSome? fun p => refusal s p.1
termination_by sizeOf o.element
decreasing_by exact sizeOf_lt_of_mem_kids p.2

theorem refusal_of_frame_error {e : Error} (h : o.frame s.stage = .error e) :
    o.refusal s = some e := by
  rw [refusal, h]

theorem refusal_of_frame_ok (h : o.frame s.stage = .ok f) :
    o.refusal s = (o.kids s f).findSome? (refusal s) := by
  rw [refusal, h]
  simp only
  conv_rhs => rw [← attach_map_subtype_val (o.kids s f), List.findSome?_map]
  rfl

end Occurrence

/-! ## Strokes -/

namespace Mark

def names : Mark → List String
  | .put name _ => [name]
  | .follow names _ _ => names

def text? (s : Scene) : Mark → Option String
  | .put _ value => some value
  | .follow _ encoding f => s.encoded? f encoding

end Mark

namespace Stroke

def sets (s : Scene) (k : Stroke) : List ViewOp :=
  match k.mark.text? s with
  | some value => k.views.flatMap fun v => k.mark.names.map fun name => .set v name value
  | none => []

def given (s : Scene) (v : Nat) (name : String) (x : Option String) (k : Stroke) : Option String :=
  if v ∈ k.views ∧ name ∈ k.mark.names then (k.mark.text? s).or x else x

/-- The property that is retained for a stroke: none when it cannot change. -/
def bound? (s : Scene) (k : Stroke) : Option BoundProperty :=
  match k.mark with
  | .put _ _ => none
  | .follow names encoding f =>
      if names.isEmpty || f.deps.isEmpty then none
      else some ⟨k.views, names, encoding, f, s.encoded? f encoding⟩

/-- Whether a property is retained for a stroke. -/
def isBound (k : Stroke) : Bool :=
  match k.mark with
  | .put _ _ => false
  | .follow names _ f => !(names.isEmpty || f.deps.isEmpty)

theorem foldl_written_sets (s : Scene) (v : Nat) (name : String) (x : Option String)
    (k : Stroke) : (k.sets s).foldl (ViewOp.written v name) x = k.given s v name x := by
  unfold sets given
  cases k.mark.text? s with
  | none => simp
  | some value => exact ViewOp.foldl_written_writes v name x (some value) k.views k.mark.names

theorem foldl_written_flatMap_sets (s : Scene) (v : Nat) (name : String) (x : Option String)
    (ks : List Stroke) :
    (ks.flatMap (sets s)).foldl (ViewOp.written v name) x = ks.foldl (given s v name) x := by
  rw [foldl_flatMap]
  simp only [foldl_written_sets]

theorem mem_sets {k : Stroke} {op : ViewOp} (h : op ∈ k.sets s) :
    ∃ v ∈ k.views, ∃ name value, op = .set v name value := by
  unfold sets at h
  split at h
  · obtain ⟨v, hv, h⟩ := mem_flatMap.mp h
    obtain ⟨name, -, rfl⟩ := mem_map.mp h
    exact ⟨v, hv, name, _, rfl⟩
  · simp at h

end Stroke

def BoundProperty.stroke (b : BoundProperty) : Stroke :=
  ⟨b.views, .follow b.names b.encoding b.formula⟩

namespace Frame

/-- What the views of an element are given before its children are built. -/
def strokes (f : Frame) (v w : Nat) : List Stroke :=
  (f.base.map fun p => ⟨[v], .put p.1 p.2⟩) ++
    (f.content.toList.flatMap fun c => c.2.map fun p => ⟨[w], .put p.1 p.2⟩) ++
    f.marks.map fun m => ⟨[if m.1 then w else v], m.2⟩

/-- The gap between children, given on all but the first. -/
def gap (f : Frame) (views : List Nat) : List Stroke :=
  if views.length > 1 then f.between.toList.map (Stroke.mk views.tail) else []

def opening (s : Scene) (f : Frame) (v w : Nat) : List ViewOp :=
  .create v f.tag :: (f.base.map fun p => ViewOp.set v p.1 p.2) ++
    (f.content.toList.flatMap fun c =>
      .create w c.1 :: (c.2.map fun p => ViewOp.set w p.1 p.2) ++ [.append v w]) ++
    (f.marks.flatMap fun m => Stroke.sets s ⟨[if m.1 then w else v], m.2⟩)

end Frame

namespace Sketch

def view : Sketch → Nat
  | .plain v _ _ _ => v
  | .slot _ site _ _ _ => site.view

def labels : Sketch → List Nat
  | .plain v inner _ kids => v :: (inner.toList ++ kids.flatMap labels)
  | .slot _ site _ _ kids => site.view :: kids.flatMap labels

def ground : Sketch → List Nat
  | .plain v inner _ kids => v :: (inner.toList ++ kids.flatMap ground)
  | .slot _ site _ _ _ => [site.view]

/-- What the views outside slots are given, in order. -/
def strokes : Sketch → List Stroke
  | .plain v inner f kids =>
      f.strokes v (inner.getD v) ++ kids.flatMap strokes ++
        f.around.toList.map (Stroke.mk [inner.getD v]) ++ f.gap (kids.map view)
  | .slot f site _ _ _ => f.strokes site.view site.view

/-- What the views of the children are given outside their slots. -/
def scope (f : Frame) (kids : List Sketch) : List Stroke :=
  kids.flatMap strokes ++ f.gap (kids.map view)

def ops (s : Scene) : Sketch → List ViewOp
  | .plain v inner f kids =>
      f.opening s v (inner.getD v) ++
        (kids.flatMap fun k => k.ops s ++ [.append (inner.getD v) k.view]) ++
        ((f.around.toList.map (Stroke.mk [inner.getD v]) ++ f.gap (kids.map view)).flatMap
          (Stroke.sets s))
  | .slot f site _ _ kids =>
      f.opening s site.view site.view ++
        (kids.flatMap fun k => k.ops s ++ [.append site.view k.view]) ++
        ((f.gap (kids.map view)).flatMap (Stroke.sets s))

/-- The slots that are not inside another one. -/
def slots : Sketch → List Slot
  | .plain _ _ _ kids => kids.flatMap slots
  | .slot _ site key properties kids => [⟨site, key, properties, kids.flatMap slots⟩]

/-- The operations that build children and append them to a view. -/
def filling (s : Scene) (w : Nat) (kids : List Sketch) : List ViewOp :=
  kids.flatMap fun k => k.ops s ++ [.append w k.view]

@[elab_as_elim]
theorem inductionOn {motive : Sketch → Prop} (k : Sketch)
    (plain : ∀ v inner f kids, (∀ k ∈ kids, motive k) → motive (.plain v inner f kids))
    (slot : ∀ f site key properties kids, (∀ k ∈ kids, motive k) →
      motive (.slot f site key properties kids)) : motive k :=
  match k with
  | .plain v inner f kids => plain v inner f kids fun k _ => inductionOn k plain slot
  | .slot f site key properties kids =>
      slot f site key properties kids fun k _ => inductionOn k plain slot

end Sketch

/-- A sketch is drawn for an element when its frames are those of the element and the elements below,
and the children of each slot are those that its key selects. -/
inductive Sketch.Drawn (g : Stage) : Occurrence → Sketch → Prop
  | plain {o : Occurrence} {v : Nat} {inner : Option Nat} {f : Frame} {kids : List Sketch}
      (hframe : o.frame g = .ok f) (hslot : f.slot = none)
      (hinner : inner.isSome = f.content.isSome)
      (hkids : Forall₂ (Sketch.Drawn g) (o.members f) kids) :
      Sketch.Drawn g o (.plain v inner f kids)
  | slot {o : Occurrence} {v : Nat} {f : Frame} {kind : SlotKind} {key : SlotKey}
      {properties : List BoundProperty} {kids : List Sketch}
      (hframe : o.frame g = .ok f) (hslot : f.slot = some kind)
      (hproperties : properties.map BoundProperty.stroke =
        (Sketch.scope f kids).filter Stroke.isBound)
      (hkids : Forall₂ (Sketch.Drawn g)
        ((o.site f kind v).selected key o.element.children) kids) :
      Sketch.Drawn g o (.slot f (o.site f kind v) key properties kids)

end Widgetry
