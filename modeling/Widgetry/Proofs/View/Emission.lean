import Widgetry.Proofs.View.Laying

/-!
# Emission

What each step of a build adds to a canvas: the operations it performs, and the properties and slots
it retains. The steps that make the marks of an element add the strokes of its marks, or stop with the
error of the first formula that is refused.
-/

namespace Widgetry

open List

/-- What a part of a build adds to a canvas. -/
structure Trace where
  ops : List ViewOp
  properties : List BoundProperty
  slots : List Slot

namespace Trace

def append (a b : Trace) : Trace :=
  ⟨a.ops ++ b.ops, a.properties ++ b.properties, a.slots ++ b.slots⟩

instance : Append Trace := ⟨append⟩

@[simp] theorem ops_append (a b : Trace) : (a ++ b).ops = a.ops ++ b.ops := rfl

@[simp] theorem properties_append (a b : Trace) :
    (a ++ b).properties = a.properties ++ b.properties := rfl

@[simp] theorem slots_append (a b : Trace) : (a ++ b).slots = a.slots ++ b.slots := rfl

theorem ext {a b : Trace} (hops : a.ops = b.ops) (hproperties : a.properties = b.properties)
    (hslots : a.slots = b.slots) : a = b := by
  cases a
  cases b
  simp_all

def empty : Trace := ⟨[], [], []⟩

theorem append_assoc (a b c : Trace) : a ++ b ++ c = a ++ (b ++ c) :=
  ext (List.append_assoc ..) (List.append_assoc ..) (List.append_assoc ..)

theorem append_empty (a : Trace) : a ++ empty = a :=
  ext (List.append_nil _) (List.append_nil _) (List.append_nil _)

def op (o : ViewOp) : Trace := ⟨[o], [], []⟩

def strokes (s : Scene) (ks : List Stroke) : Trace :=
  ⟨ks.flatMap (Stroke.sets s), ks.filterMap (Stroke.bound? s), []⟩

theorem strokes_append (s : Scene) (as bs : List Stroke) :
    strokes s (as ++ bs) = strokes s as ++ strokes s bs := by
  apply ext <;> simp [strokes]

end Trace

namespace Canvas

def add (c : Canvas) (e : Trace) : Canvas :=
  ⟨c.tree.replay e.ops, e.ops.reverse ++ c.log,
    ⟨c.retained.properties ++ e.properties, c.retained.slots ++ e.slots⟩⟩

theorem add_append (c : Canvas) (a b : Trace) : c.add (a ++ b) = (c.add a).add b := by
  simp [add, ViewTree.replay_append]

theorem add_empty (c : Canvas) : c.add .empty = c := by
  simp [add, Trace.empty, ViewTree.replay]

@[simp] theorem tree_add (c : Canvas) (e : Trace) : (c.add e).tree = c.tree.replay e.ops := rfl

end Canvas

namespace Build

section Emits

variable {α β : Type}

/-- A build that succeeds, with what it returns and adds. -/
def Emits (m : Build α) (c : Canvas) (a : α) (e : Trace) : Prop := m.run c = (.ok a, c.add e)

variable {m : Build α} {f : α → Build β} {c : Canvas} {a : α} {e e' : Trace} {x : Except Error α}

theorem run_bind_of_error {c' : Canvas} {e : Error} (h : m.run c = (.error e, c')) :
    (m >>= f).run c = (.error e, c') := by
  have hb : (m >>= f).run c = (ExceptT.bindCont f (m.run c).1).run (m.run c).2 := rfl
  rw [hb, h]
  rfl

theorem Emits.run_bind (h : Emits m c a e) : (m >>= f).run c = (f a).run (c.add e) := by
  have hb : (m >>= f).run c = (ExceptT.bindCont f (m.run c).1).run (m.run c).2 := rfl
  rw [hb, h]
  rfl

theorem Emits.bind {b : β} (h : Emits m c a e) (h' : Emits (f a) (c.add e) b e') :
    Emits (m >>= f) c b (e ++ e') := by
  rw [Emits, h.run_bind, h', Canvas.add_append]

theorem Emits.next {m : Build Unit} {m' : Build β} {b : β} (h : Emits m c () e)
    (h' : Emits m' (c.add e) b e') : Emits (m >>= fun _ => m') c b (e ++ e') := h.bind h'

theorem Emits.congr (h : Emits m c a e) (he : e = e') : Emits m c a e' := he ▸ h

theorem emits_pure (a : α) (c : Canvas) : Emits (pure a) c a .empty := by
  rw [Emits, Canvas.add_empty]
  rfl

theorem Emits.map (h : Emits m c a e) (f : α → β) : Emits (m >>= fun a => pure (f a)) c (f a) e :=
  (h.bind (emits_pure (f a) _)).congr (Trace.append_empty e)

theorem Emits.returns {m : Build Unit} (h : Emits m c () e) (b : β) :
    Emits (m >>= fun _ => pure b) c b e := h.map fun _ => b

theorem emits_perform (op : ViewOp) (c : Canvas) : Emits (perform op) c () (.op op) := by
  simp only [Emits, Canvas.add, Trace.op, List.append_nil]
  rfl

theorem emits_check (h : x = .ok a) (c : Canvas) : Emits (check x) c a .empty := by
  subst h
  exact emits_pure a c

theorem run_check_of_error {e : Error} (h : x = .error e) (c : Canvas) :
    (check x).run c = (.error e, c) := by
  subst h
  rfl

theorem emits_create (tag : String) (c : Canvas) :
    Emits (create tag) c c.tree.size (.op (.create c.tree.size tag)) := by
  simp only [Emits, Canvas.add, Trace.op, List.append_nil]
  rfl

end Emits

variable (s : Scene)

theorem emits_puts (v : Nat) (ps : List (String × String)) (c : Canvas) :
    Emits (setAll v ps) c () (.strokes s (ps.map fun p => ⟨[v], .put p.1 p.2⟩)) := by
  induction ps generalizing c with
  | nil => exact emits_pure () c
  | cons p ps ih =>
    exact (emits_perform (.set v p.1 p.2) c).next (ih _)

theorem emits_setEach (views : List Nat) (names : List String) (value : String) (c : Canvas) :
    Emits (setEach views names value) c ()
      ⟨views.flatMap fun v => names.map fun name => .set v name value, [], []⟩ := by
  have hnames : ∀ v c, Emits (names.forM fun name => perform (.set v name value)) c ()
      ⟨names.map fun name => .set v name value, [], []⟩ := by
    intro v c
    induction names generalizing c with
    | nil => exact emits_pure () c
    | cons name names ih =>
      exact (emits_perform (.set v name value) c).next (ih _)
  induction views generalizing c with
  | nil => exact emits_pure () c
  | cons v views ih =>
    exact (hnames v c).next (ih _)

theorem emits_setEach_put (v : Nat) (names : List String) (value : String) (c : Canvas) :
    Emits (setEach [v] names value) c ()
      (.strokes s (names.map fun name => ⟨[v], .put name value⟩)) := by
  have hops : ([v].flatMap fun v => names.map fun name => ViewOp.set v name value) =
      (names.map fun name => (⟨[v], .put name value⟩ : Stroke)).flatMap (Stroke.sets s) := by
    rw [flatMap_map, flatMap_singleton, map_eq_flatMap]
    rfl
  have hbound : (names.map fun name => (⟨[v], .put name value⟩ : Stroke)).filterMap
      (Stroke.bound? s) = [] := by
    simp [filterMap_map, Stroke.bound?, Function.comp_def]
  rw [Trace.strokes, ← hops, hbound]
  exact emits_setEach [v] names value c

theorem emits_retain (p : BoundProperty) (c : Canvas) : Emits (retain p) c () ⟨[], [p], []⟩ := by
  simp only [Emits, Canvas.add, ViewTree.replay, foldl_nil, reverse_nil, nil_append,
    List.append_nil]
  rfl

theorem emits_follow (views : List Nat) (names : List String) (encoding : Encoding) (f : Formula)
    (c : Canvas) :
    Emits (follow s views names encoding f) c () (.strokes s [⟨views, .follow names encoding f⟩]) := by
  have hretain : ∀ c, Emits (if f.deps.isEmpty then pure () else
      retain ⟨views, names, encoding, f, s.encoded? f encoding⟩) c ()
      ⟨[], if f.deps.isEmpty then [] else [⟨views, names, encoding, f, s.encoded? f encoding⟩], []⟩ := by
    intro c
    split
    · exact emits_pure () c
    · exact emits_retain _ c
  unfold follow
  cases names with
  | nil =>
    have hsets : Stroke.sets s ⟨views, .follow [] encoding f⟩ = [] := by
      simp only [Stroke.sets, Mark.text?, Mark.names]
      cases s.encoded? f encoding <;> simp
    simp only [isEmpty_nil, if_true, Trace.strokes, flatMap_singleton, hsets]
    exact emits_pure () c
  | cons name names =>
    have hbound : [(⟨views, .follow (name :: names) encoding f⟩ : Stroke)].filterMap
        (Stroke.bound? s) = if f.deps.isEmpty then []
          else [⟨views, name :: names, encoding, f, s.encoded? f encoding⟩] := by
      simp only [filterMap_cons, filterMap_nil, Stroke.bound?, isEmpty_cons,
        Bool.false_or]
      cases f.deps.isEmpty <;> rfl
    rw [Trace.strokes, flatMap_singleton, hbound]
    simp only [Stroke.sets, Mark.text?, Mark.names, isEmpty_cons, Bool.false_eq_true, if_false]
    cases hf : s.encoded? f encoding with
    | none =>
      rw [hf] at hretain
      exact hretain c
    | some value =>
      rw [hf] at hretain
      exact ((emits_setEach views (name :: names) value c).next (hretain _)).congr
        (Trace.ext (List.append_nil _) rfl rfl)

theorem emits_gapOnContainer (v : Nat) (flow : Flow) (spacing : Option Formula) (c : Canvas) :
    Emits (gapOnContainer s v flow spacing) c ()
      (.strokes s ((s.stage.gapAround flow spacing).toList.map (Stroke.mk [v]))) := by
  unfold gapOnContainer Stage.gapAround
  cases spacing with
  | none => cases s.stage.target.gapPlace flow <;> exact emits_pure () c
  | some f =>
    simp only [Scene.stage]
    cases s.target.gapPlace flow with
    | container name => exact emits_follow s [v] [name] _ f c
    | following name => exact emits_pure () c

theorem emits_gapOnChildren {f : Frame} {flow : Flow} {spacing : Option Formula}
    (hf : f.between = s.stage.gapBetween flow spacing) (views : List Nat) (c : Canvas) :
    Emits (gapOnChildren s views flow spacing) c () (.strokes s (f.gap views)) := by
  unfold gapOnChildren Frame.gap
  rw [hf, Stage.gapBetween]
  cases spacing with
  | none =>
    cases s.stage.target.gapPlace flow <;> simp only [Option.map_none, Option.toList_none,
      map_nil, ite_self] <;> exact emits_pure () c
  | some g =>
    simp only [Scene.stage]
    cases s.target.gapPlace flow with
    | container name =>
      simp only [Option.toList_none, map_nil, ite_self]
      exact emits_pure () c
    | following name =>
      simp only
      split
      · exact emits_follow s views.tail [name] _ g c
      · exact emits_pure () c

theorem emits_align (v w : Nat) (flow : Flow) (axis : Axis) (value : String) (c : Canvas) :
    Emits (align s w flow axis value) c (s.stage.aligned flow axis value).2
      (.strokes s ((s.stage.aligned flow axis value).1.map
        fun m => ⟨[if m.1 then w else v], m.2⟩)) := by
  unfold align Stage.aligned
  simp only [Scene.stage]
  cases s.target.alignmentProperty flow axis with
  | mk name onChildren =>
    cases onChildren with
    | true => exact emits_pure _ c
    | false => exact (emits_perform (.set w name value) c).returns []

theorem emits_applyModifier (item : List Segment) (kind : Kind) (v w : Nat) (flow : Flow)
    (m : Modifier Term) (c : Canvas) :
    Emits (applyModifier s item kind v w flow m) c (s.stage.modified item kind flow m).2
      (.strokes s ((s.stage.modified item kind flow m).1.map
        fun m => ⟨[if m.1 then w else v], m.2⟩)) := by
  obtain ⟨property, value⟩ := m
  cases value with
  | flag => exact (emits_perform _ c).returns []
  | native value =>
    cases property with
    | alignment => exact emits_align s v w flow .horizontal value c
    | crossAlignment => exact emits_align s v w flow .vertical value c
    | textAlign => exact (emits_perform _ c).returns []
    | _ =>
      simp only [Stage.modified, map_map]
      exact (emits_setEach_put s v _ value c).returns []
  | computed t =>
    simp only [applyModifier, Stage.modified]
    split
    · exact emits_pure [] c
    · exact (emits_follow s [v] _ _ ⟨item, t⟩ c).returns []

theorem emits_applyModifiers (item : List Segment) (kind : Kind) (v w : Nat) (flow : Flow)
    (mods : List (Modifier Term)) (c : Canvas) :
    Emits (applyModifiers s item kind v w flow mods) c
      (mods.flatMap fun m => (s.stage.modified item kind flow m).2)
      (.strokes s ((mods.flatMap fun m => (s.stage.modified item kind flow m).1).map
        fun m => ⟨[if m.1 then w else v], m.2⟩)) := by
  induction mods generalizing c with
  | nil => exact emits_pure [] c
  | cons m mods ih =>
    simp only [flatMap_cons, map_append, Trace.strokes_append]
    exact (emits_applyModifier s item kind v w flow m c).bind ((ih _).map _)

variable {o : Occurrence} {p : Property} {type : ValueType}

theorem emits_formula? {f : Option Formula} (h : o.formula s.stage p type = .ok f) (c : Canvas) :
    Emits (formula? s o.item o.element p type) c f .empty := by
  unfold Occurrence.formula at h
  unfold formula?
  cases hv : o.element.get? p with
  | none =>
    rw [hv] at h
    cases h
    exact emits_pure none c
  | some v =>
    simp only [hv] at h
    cases ht : Elaboration.property s.stage.env type (o.element.place.field p.name) v with
    | error e => simp [ht, Except.map] at h
    | ok t =>
      simp only [ht, Except.map, Except.ok.injEq] at h
      subst h
      exact (emits_check ht c).map fun t => some (Formula.mk o.item t)

theorem run_formula?_of_error {e : Error} (h : o.formula s.stage p type = .error e) (c : Canvas) :
    (formula? s o.item o.element p type).run c = (.error e, c) := by
  unfold Occurrence.formula at h
  unfold formula?
  cases hv : o.element.get? p with
  | none => simp [hv] at h
  | some v =>
    simp only [hv] at h
    cases ht : Elaboration.property s.stage.env type (o.element.place.field p.name) v with
    | ok t => simp [ht, Except.map] at h
    | error e' =>
      simp only [ht, Except.map, Except.error.injEq] at h
      subst h
      exact run_bind_of_error (run_check_of_error ht c)

/-- A build that makes marks on a view, or stops with an error after some of them. -/
def Marks (m : Build Unit) (v : Nat) (x : Except Error (List Mark)) : Prop :=
  ∀ c, match x with
    | .ok ms => Emits m c () (.strokes s (ms.map (Stroke.mk [v])))
    | .error e => ∃ ms : List Mark, m.run c = (.error e, c.add (.strokes s (ms.map (Stroke.mk [v]))))

theorem strokes_nil_add (c : Canvas) : c.add (.strokes s []) = c := c.add_empty

theorem marks_formula {v : Nat} {m : Option Formula → Build Unit}
    {x : Option Formula → Except Error (List Mark)} (h : ∀ f, Marks s (m f) v (x f)) :
    Marks s (formula? s o.item o.element p type >>= m) v (o.formula s.stage p type >>= x) := by
  intro c
  cases hf : o.formula s.stage p type with
  | error e =>
    refine ⟨[], ?_⟩
    rw [run_bind_of_error (run_formula?_of_error s hf c)]
    exact congrArg (Prod.mk _) (strokes_nil_add s c).symm
  | ok f =>
    have hrun : (formula? s o.item o.element p type >>= m).run c = (m f).run c := by
      rw [(emits_formula? s hf c).run_bind, Canvas.add_empty]
    have hm := h f c
    simp only [bind, Except.bind]
    cases hx : x f with
    | error e =>
      simp only [hx] at hm
      exact hm.imp fun ms hms => hrun.trans hms
    | ok ms =>
      simp only [hx] at hm
      exact hrun.trans hm

/-- Marks before other marks. -/
theorem Marks.bind {m m' : Build Unit} {v : Nat} {ms : List Mark} {x : Except Error (List Mark)}
    (h : Marks s m v (.ok ms)) (h' : Marks s m' v x) :
    Marks s (m >>= fun _ => m') v (x.map (ms ++ ·)) := by
  intro c
  have hrun := (h c).run_bind (f := fun _ => m')
  have hm' := h' (c.add (.strokes s (ms.map (Stroke.mk [v]))))
  cases x with
  | error e =>
    obtain ⟨ms', hms'⟩ := hm'
    refine ⟨ms ++ ms', ?_⟩
    rw [map_append, Trace.strokes_append, Canvas.add_append]
    exact hrun.trans hms'
  | ok ms' =>
    show Emits _ _ _ _
    rw [map_append, Trace.strokes_append]
    exact (h c).next hm'

theorem marks_label (hk : o.element.kind = .label) (mods : List (Modifier Term))
    (spacing : Option Formula) (v : Nat) :
    Marks s (label s o.item o.element v) v (o.own s.stage mods spacing) := by
  unfold label Occurrence.own
  rw [hk]
  refine marks_formula s fun f c => ?_
  cases f with
  | none => exact emits_pure () c
  | some f => exact emits_follow s [v] _ _ f c

theorem marks_follow (v : Nat) (names : List String) (encoding : Encoding) (f : Formula) :
    Marks s (follow s [v] names encoding f) v (.ok [.follow names encoding f]) :=
  fun c => emits_follow s [v] names encoding f c

theorem marks_extent (v : Nat) (axis : Axis) (f : Formula) :
    Marks s (extent s v axis f) v (.ok [s.stage.extent axis f]) := marks_follow s v _ _ f

theorem marks_puts (v : Nat) (ps : List (String × String)) :
    Marks s (setAll v ps) v (.ok (ps.map fun p => .put p.1 p.2)) := by
  intro c
  simp only [map_map]
  exact emits_puts s v ps c

theorem marks_nil (v : Nat) : Marks s (pure ()) v (.ok []) := fun c => emits_pure () c

theorem map_append_bind (x : Except Error (Option Formula)) (ms : List Mark)
    (ns : Option Formula → List Mark) :
    (x >>= fun f => Except.ok (ns f)).map (ms ++ ·) = (x >>= fun f => Except.ok (ms ++ ns f)) := by
  cases x <;> rfl

theorem marks_size (o : Occurrence) (v : Nat) :
    Marks s
      (formula? s o.item o.element .size .number >>= fun size => match size with
        | some f => extent s v .horizontal f >>= fun _ => extent s v .vertical f
        | none => pure ()) v
      (o.formula s.stage .size .number >>= fun size => .ok
        ((size.map fun f => [s.stage.extent .horizontal f, s.stage.extent .vertical f]).getD [])) := by
  refine marks_formula s fun f => ?_
  cases f with
  | none => exact marks_nil s v
  | some f => exact (marks_extent s v .horizontal f).bind s (marks_extent s v .vertical f)

theorem marks_image (hk : o.element.kind = .image) (mods : List (Modifier Term))
    (spacing : Option Formula) (v : Nat) :
    Marks s (image s o.item o.element v) v (o.own s.stage mods spacing) := by
  unfold image Occurrence.own
  rw [hk]
  refine marks_formula s fun f => ?_
  cases f with
  | none => exact marks_size s o v
  | some f =>
    have h := (marks_follow s v ["src"] .text f).bind s (marks_size s o v)
    rw [map_append_bind] at h
    exact h

theorem marks_spacer (hk : o.element.kind = .spacer) (mods : List (Modifier Term))
    (spacing : Option Formula) (v : Nat) :
    Marks s (spacer s o.item o.around o.element v) v (o.own s.stage mods spacing) := by
  unfold spacer Occurrence.own
  rw [hk]
  refine marks_formula s fun f => ?_
  cases f with
  | none => exact marks_puts s v _
  | some f =>
    cases o.around with
    | vertical => exact marks_extent s v .vertical f
    | horizontal => exact (marks_extent s v .horizontal f).bind s (marks_nil s v)
    | overlay => exact (marks_extent s v .horizontal f).bind s (marks_extent s v .vertical f)

/-- A divider without a color of its own has that of the style. -/
theorem marks_dividerColor (mods : List (Modifier Term)) (v : Nat) :
    Marks s (if (Modifier.computed? mods .color).isSome then pure ()
      else match s.target.encode s.style (.color .divider) (s.target.outputs .color .divider).2 with
        | some value => setEach [v] (s.target.outputs .color .divider).1 value
        | none => pure ()) v
      (.ok (if (Modifier.computed? mods .color).isSome then []
        else match s.target.encode s.style (.color .divider)
            (s.target.outputs .color .divider).2 with
          | some value => (s.target.outputs .color .divider).1.map fun name => .put name value
          | none => [])) := by
  split
  · exact marks_nil s v
  · split
    · intro c
      simp only [map_map]
      exact emits_setEach_put s v _ _ c
    · exact marks_nil s v

theorem marks_divider (hk : o.element.kind = .divider) (mods : List (Modifier Term))
    (spacing : Option Formula) (v : Nat) :
    Marks s (divider s o.item o.around mods o.element v) v (o.own s.stage mods spacing) := by
  unfold divider Occurrence.own
  rw [hk]
  have h := (marks_puts s v [s.target.fillProperty
      (if o.around = .horizontal then Axis.vertical else Axis.horizontal)]).bind s
    (@marks_formula s o .thickness .number v _ _ fun thickness =>
      (marks_extent s v (if o.around = .horizontal then Axis.horizontal else Axis.vertical)
        (thickness.getD ⟨o.item, .literal (.number 1.0)⟩)).bind s (marks_dividerColor s mods v))
  -- the fill comes first, so the list of marks is a `cons`
  have hmap : ∀ (x : Except Error (Option Formula)) (m : Mark) (ns : Option Formula → List Mark),
      (x >>= fun f => Except.ok (ns f)).map ([m] ++ ·) = (x >>= fun f => Except.ok (m :: ns f)) :=
    fun x m ns => map_append_bind x [m] ns
  exact (hmap _ _ _) ▸ h

end Build

end Widgetry
