import Widgetry.Proofs.View.Refilling

/-!
# Depictions

A rendering depicts a sketch of its root element: the sketch stands in its tree, and what is retained
belongs to it. Rendering gives a depiction, and an update leads from one depiction to the next.
-/

namespace Widgetry

open List

namespace Layout

def occurrence (l : Layout) : Occurrence := ⟨[], [], .overlay, [], l.root⟩

/-- What the view of the root gets from the default padding. -/
def padding (g : Stage) (l : Layout) (v : Nat) : List Stroke :=
  let (names, encoding) := g.target.outputs .padding l.root.kind
  match l.rootPadding?.bind fun p => g.target.encode g.style (.number p) encoding with
  | some value => names.map fun name => ⟨[v], .put name value⟩
  | none => []

/-- What the views outside slots are given, in order. -/
def strokes (g : Stage) (l : Layout) (k : Sketch) : List Stroke :=
  k.strokes ++ l.padding g k.view

theorem stands_occurrence (l : Layout) : l.occurrence.Stands l.root := rfl

variable {g : Stage} {l : Layout}

theorem views_of_mem_padding {v : Nat} {st : Stroke} (h : st ∈ l.padding g v) :
    ∀ u ∈ st.views, u = v := by
  unfold padding at h
  simp only at h
  split at h
  · obtain ⟨name, -, rfl⟩ := mem_map.mp h
    exact fun u hu => mem_singleton.mp hu
  · simp at h

theorem views_of_mem_strokes {k : Sketch} : ∀ st ∈ l.strokes g k, ∀ v ∈ st.views, v ∈ k.ground := by
  intro st hst v hv
  rcases mem_append.mp hst with hst | hst
  · exact Sketch.views_of_mem_strokes hst v hv
  · rw [views_of_mem_padding hst v hv]
    exact k.view_mem_ground

end Layout

def Renderer.scene (r : Renderer) (size : Size) (c : Context) : Scene :=
  ⟨r.target, r.style, size, c⟩

theorem Renderer.agree_diff (r : Renderer) (size : Size) {c d : Context}
    (hc : c.unsignedZeros = true) (hd : d.unsignedZeros = true) :
    (r.scene size c).Agree (r.scene size d) (c.diff d) :=
  Scene.agree_diff ⟨r.target, r.style, size⟩ hc hd

namespace Rendering

/-- The sketch that a rendering shows. -/
structure Depicts (r : Renderer) (R : Rendering) (k : Sketch) : Prop where
  drawn : k.Drawn (r.scene R.size R.context).stage R.layout.occurrence
  view : R.root = k.view
  slots : R.retained.slots = k.slots
  properties : R.retained.properties.map BoundProperty.stroke =
    (R.layout.strokes (r.scene R.size R.context).stage k).filter Stroke.isBound
  placed : Sketch.Placed R.tree [k]

/-- What is retained has the values of a scene. -/
structure Current (s : Scene) (R : Rendering) (k : Sketch) : Prop where
  properties : ∀ b ∈ R.retained.properties, b.last = s.encoded? b.formula b.encoding
  slots : k.Current s

/-- The views hold what a history leaves. -/
structure PaintedSince (h : List Scene) (g : Stage) (R : Rendering) (k : Sketch) : Prop where
  ground : ∀ v ∈ k.ground, ∀ name, R.tree.property? v name =
    Stroke.since (R.layout.strokes g k) v name h
  nested : k.PaintedSince h R.tree.property?

end Rendering

theorem ViewTree.sorted_empty : ViewTree.empty.Sorted := by
  intro v x hx
  simp [ViewTree.empty, ViewTree.view?] at hx

namespace Sketch

/-- A tree shows a sketch: views have its tags and children, and hold what its strokes give them, with
strokes made afterwards outside slots. -/
structure Shown (s : Scene) (t : ViewTree) (after : List Stroke) (k : Sketch) : Prop where
  framed : k.FramedBy t.outline?
  ground : ∀ v ∈ k.ground, ∀ name,
    t.property? v name = (k.strokes ++ after).foldl (Stroke.given s v name) none
  nested : k.PaintedBy s t.property?

section Replay

variable {s : Scene} {k : Sketch} {after : List Stroke}

section

variable (hk : k.Shaped) (hn : Numbered 0 k.labels)
  (hafter : ∀ st ∈ after, ∀ v ∈ st.views, v ∈ k.ground)

include hk hn hafter

theorem timely_ops_strokes :
    ViewOp.Timely ViewTree.empty.size (k.ops s ++ after.flatMap (Stroke.sets s)) := by
  refine ViewOp.timely_append.mpr ⟨timely_ops k hk hn, ?_⟩
  rw [created_ops k hk]
  refine timely_strokes fun st hst v hv => ?_
  exact (hn.mem_iff.mp (mem_labels.mpr (.inl (hafter st hst v hv)))).2

theorem shown_replay :
    k.Shown s (ViewTree.empty.replay (k.ops s ++ after.flatMap (Stroke.sets s))) after := by
  have htimely := timely_ops_strokes (s := s) hk hn hafter
  have hread : ∀ v name,
      (ViewTree.empty.replay (k.ops s ++ after.flatMap (Stroke.sets s))).property? v name =
        after.foldl (Stroke.given s v name) ((k.ops s).foldl (ViewOp.written v name) none) := by
    intro v name
    rw [ViewTree.property?_replay ViewTree.sorted_empty htimely, foldl_append,
      Stroke.foldl_written_flatMap_sets]
    rfl
  refine ⟨(framedBy_ops (s := s) k hk hn.nodup ViewTree.empty.outline?).congr fun v _ => ?_,
    fun v hv name => ?_, ?_⟩
  · rw [ViewTree.outline?_replay htimely, foldl_append, foldl_outlined_strokes]
  · rw [hread, foldl_written_ops k (not_mem_nested hn.nodup hv), ← foldl_append]
  · refine (paintedBy_ops k hn.nodup (fun _ _ => none) fun _ _ _ => rfl).congr fun v hv name => ?_
    rw [hread]
    refine Stroke.foldl_given_of_not_touches (fun st hst ht => ?_) _
    exact not_mem_nested hn.nodup (hafter st hst v ht.1) hv

theorem placed_replay :
    Placed (ViewTree.empty.replay (k.ops s ++ after.flatMap (Stroke.sets s))) [k] where
  nodup := by
    rw [flatMap_singleton]
    exact hn.nodup
  below v hv := by
    rw [flatMap_singleton] at hv
    rw [ViewTree.size_replay, filterMap_append, created_ops k hk, created_strokes,
      append_nil]
    exact (hn.mem_iff.mp hv).2
  framed k' hk' := by
    rw [mem_singleton.mp hk']
    exact (shown_replay hk hn hafter).framed
  sorted := ViewTree.sorted_empty.replay _

end

end Replay

end Sketch

variable {e : Error}

namespace Renderer

variable {r : Renderer} {l : Layout} {size : Size} {c : Context}

theorem emits_padding (s : Scene) (l : Layout) (v : Nat) (c : Canvas) :
    Build.Emits (match l.rootPadding? with
      | some p =>
          match s.target.encode s.style (.number p) (s.target.outputs .padding l.root.kind).2 with
          | some value => Build.setEach [v] (s.target.outputs .padding l.root.kind).1 value
          | none => pure ()
      | none => pure ()) c () (.strokes s (l.padding s.stage v)) := by
  unfold Layout.padding
  simp only [Scene.stage]
  cases l.rootPadding? with
  | none => exact Build.emits_pure () c
  | some p =>
    simp only [Option.bind_some]
    cases s.target.encode s.style (.number p) (s.target.outputs .padding l.root.kind).2 with
    | none => exact Build.emits_pure () c
    | some value => exact Build.emits_setEach_put s v _ value c

theorem buildRoot_eq (s : Scene) (l : Layout) :
    buildRoot s l = (Build.occurrence s l.occurrence >>= fun v =>
      (match l.rootPadding? with
      | some p =>
          match s.target.encode s.style (.number p) (s.target.outputs .padding l.root.kind).2 with
          | some value => Build.setEach [v] (s.target.outputs .padding l.root.kind).1 value
          | none => pure ()
      | none => pure ()) >>= fun _ => pure v) := by
  unfold buildRoot
  congr 1
  funext v
  cases l.rootPadding? with
  | none => rfl
  | some p =>
    simp only
    cases s.target.encode s.style (.number p) (s.target.outputs .padding l.root.kind).2 <;> rfl

def ops (s : Scene) (l : Layout) (k : Sketch) : List ViewOp :=
  k.ops s ++ (l.padding s.stage k.view).flatMap (Stroke.sets s)

theorem render_eq_error (h : l.occurrence.refusal (r.scene size c) = some e) :
    r.render l size c = .error (e.inWidget l.name) := by
  have hdraws := Build.draws (r.scene size c) l.occurrence ⟨.empty, [], .empty⟩
  simp only [h] at hdraws
  obtain ⟨c', hrun, -⟩ := hdraws
  rw [render, ← scene, buildRoot_eq, Build.run_bind_of_error hrun]

/-- An element that is not refused is rendered, and the rendering depicts a sketch of it. -/
theorem exists_render (h : l.occurrence.refusal (r.scene size c) = none) :
    ∃ tree retained k log,
      r.render l size c = .ok (⟨l, size, k.view, tree, retained, c⟩, log) ∧
      Rendering.Depicts r ⟨l, size, k.view, tree, retained, c⟩ k ∧
      Rendering.Current (r.scene size c) ⟨l, size, k.view, tree, retained, c⟩ k ∧
      Rendering.PaintedSince [r.scene size c] (r.scene size c).stage
        ⟨l, size, k.view, tree, retained, c⟩ k := by
  have hdraws := Build.draws (r.scene size c) l.occurrence ⟨.empty, [], .empty⟩
  simp only [h] at hdraws
  obtain ⟨k, hdrawn, hcurrent, hn, hemits⟩ := hdraws
  generalize hs : r.scene size c = s at *
  have hk := hdrawn.shaped
  have hpadding : ∀ st ∈ l.padding s.stage k.view, ∀ v ∈ st.views, v ∈ k.ground := fun st hst =>
    Layout.views_of_mem_strokes st (mem_append_right _ hst)
  have hshown := Sketch.shown_replay (s := s) hk hn hpadding
  have hrun : Build.Emits (buildRoot s l) ⟨.empty, [], .empty⟩ k.view
      (k.trace s ++ .strokes s (l.padding s.stage k.view)) := by
    rw [buildRoot_eq]
    exact hemits.bind ((emits_padding s l k.view _).returns k.view)
  have hproperties : (k.trace s ++ .strokes s (l.padding s.stage k.view)).properties =
      (l.strokes s.stage k).filterMap (Stroke.bound? s) := by
    simp [Sketch.trace, Trace.strokes, Layout.strokes]
  have hslots : (k.trace s ++ .strokes s (l.padding s.stage k.view)).slots = k.slots :=
    append_nil _
  refine ⟨ViewTree.empty.replay (ops s l k), ⟨(l.strokes s.stage k).filterMap (Stroke.bound? s),
    k.slots⟩, k, (ops s l k).reverse.reverse, ?_,
    ⟨?_, rfl, rfl, ?_, Sketch.placed_replay hk hn hpadding⟩, ⟨?_, hcurrent⟩, hshown.ground,
    (Sketch.paintedSince_singleton hcurrent).mpr hshown.nested⟩
  · have hscene : (⟨r.target, r.style, size, c⟩ : Scene) = s := hs
    rw [render, hscene, hrun, Canvas.add, hproperties, hslots]
    simp only [Retained.empty, nil_append, append_nil]
    rfl
  · rw [hs]
    exact hdrawn
  · rw [hs]
    exact Stroke.map_stroke_bound s _
  · exact fun b hb => Stroke.last_of_mem_bound hb

end Renderer

namespace Progress

theorem touches_nil (deps : List DataPath) : touches deps [] = false :=
  any_eq_false.mpr fun _ _ => by simp

theorem refreshProperty_nil (s : Scene) (b : BoundProperty) :
    refreshProperty s [] b = pure b := by
  rw [refreshProperty, touches_nil]
  rfl

theorem refreshProperties_nil (s : Scene) (bs : List BoundProperty) :
    bs.mapM (refreshProperty s []) = pure bs := by
  induction bs with
  | nil => rfl
  | cons b bs ih =>
    rw [mapM_cons, refreshProperty_nil, ih]
    rfl

mutual

theorem refreshSlot_nil (s : Scene) (root : Element) (a : Slot) :
    refreshSlot s [] root a = pure (a, none) := by
  obtain ⟨site, key, properties, slots⟩ := a
  rw [refreshSlot, touches_nil, refreshProperties_nil, refreshSlots_nil s root slots]
  simp

theorem refreshSlots_nil (s : Scene) (root : Element) (as : List Slot) :
    refreshSlots s [] root as = pure (as, none) := by
  cases as with
  | nil => rw [refreshSlots]
  | cons a as =>
    rw [refreshSlots, refreshSlot_nil s root a, refreshSlots_nil s root as]
    rfl

end

/-- Without a change nothing is done. -/
theorem refresh_nil (s : Scene) (root : Element) (a : Retained) :
    refresh s [] root a = pure (a, none) := by
  rw [refresh, refreshProperties_nil, refreshSlots_nil]
  rfl

end Progress

namespace Renderer

variable {r : Renderer} {R : Rendering} {c : Context} {retained : Retained} {p : Progress}

theorem update_of_refresh_ok (h : (Progress.refresh (r.scene R.size c) (R.context.diff c) R.layout.root
      R.retained).run ⟨R.tree, [], 0, 0⟩ = ((retained, none), p)) :
    (∃ stats, (r.update R c).result = .ok stats) ∧ (r.update R c).rendering =
      { R with tree := p.tree, retained := retained, context := c } := by
  rw [update]
  by_cases hc : (R.context.diff c).isEmpty = true
  · rw [isEmpty_iff.mp hc, Progress.refresh_nil] at h
    simp only [hc, if_true]
    cases h
    exact ⟨⟨_, rfl⟩, rfl⟩
  · have hscene : (⟨r.target, r.style, R.size, c⟩ : Scene) = r.scene R.size c := rfl
    simp only [hc, hscene, h]
    exact ⟨⟨_, rfl⟩, rfl⟩

theorem update_of_refresh_error (h : (Progress.refresh (r.scene R.size c) (R.context.diff c)
      R.layout.root R.retained).run ⟨R.tree, [], 0, 0⟩ = ((retained, some e), p)) :
    (r.update R c).result = .error (e.inWidget R.layout.name) ∧
      (r.update R c).rendering = { R with tree := p.tree, retained := retained } := by
  rw [update]
  by_cases hc : (R.context.diff c).isEmpty = true
  · rw [isEmpty_iff.mp hc, Progress.refresh_nil] at h
    cases h
  · have hscene : (⟨r.target, r.style, R.size, c⟩ : Scene) = r.scene R.size c := rfl
    simp only [hc, hscene, h]
    exact ⟨rfl, rfl⟩

end Renderer

/-- An update leaves every view of a rendering as it is. -/
def Retained.Quiet (s : Scene) (changed : List DataPath) (root : Element) (t : ViewTree)
    (a : Retained) : Prop :=
  BoundProperty.Still s changed t a.properties ∧ Slot.AllQuiet s changed root t a.slots

namespace Rendering

variable {r : Renderer} {R : Rendering} {k : Sketch} {c : Context}

theorem Depicts.run_refresh (h : R.Depicts r k) (c : Context) (changed : List DataPath) :
    ∃ slots p, (Progress.refresh (r.scene R.size c) changed R.layout.root R.retained).run
        ⟨R.tree, [], 0, 0⟩ =
          ((⟨R.retained.properties.map (BoundProperty.renewed (r.scene R.size c) changed), slots⟩,
            Slot.refusals (r.scene R.size c) changed R.layout.root k.slots), p) ∧
      Sketch.ScopeUpdates (r.scene R.size c) changed R.layout.root [R.layout.occurrence] R.tree p.tree
        [k] R.retained.properties slots := by
  have hdrawn : k.Drawn (r.scene R.size c).stage R.layout.occurrence := h.drawn
  have hviews : ∀ b ∈ R.retained.properties, ∀ v ∈ b.views, v ∈ [k].flatMap Sketch.ground := by
    refine Sketch.views_of_mem_properties (fun st hst v hv => ?_) h.properties
    rw [flatMap_singleton]
    exact Layout.views_of_mem_strokes st hst v hv
  obtain ⟨p₁, slots, p, hrun₁, hrun, hu⟩ := (hdrawn.refreshes R.layout.stands_occurrence).scope
    (.cons hdrawn .nil) hviews ⟨R.tree, [], 0, 0⟩ h.placed
  rw [flatMap_singleton] at hrun
  refine ⟨slots, p, ?_, hu⟩
  rw [Progress.refresh, h.slots]
  exact (Progress.run_bind_eq hrun₁ _).trans (Progress.run_bind_eq hrun _)

/-- An update that is refused keeps the context, and changes no view exactly when it is quiet. -/
theorem Depicts.update_refused (h : R.Depicts r k)
    (he : Slot.refusals (r.scene R.size c) (R.context.diff c) R.layout.root k.slots = some e) :
    (r.update R c).result = .error (e.inWidget R.layout.name) ∧
      ∃ tree retained, (r.update R c).rendering = { R with tree := tree, retained := retained } ∧
        ((∀ v ∈ k.labels, tree.view? v = R.tree.view? v) ↔
          R.retained.Quiet (r.scene R.size c) (R.context.diff c) R.layout.root R.tree) := by
  obtain ⟨slots, p, hrun, hu⟩ := h.run_refresh c (R.context.diff c)
  rw [he] at hrun
  obtain ⟨hresult, hrendering⟩ := Renderer.update_of_refresh_error hrun
  refine ⟨hresult, p.tree, _, hrendering, ?_⟩
  have hquiet := hu.quiet
  rw [flatMap_singleton, flatMap_singleton, ← h.slots] at hquiet
  exact hquiet

/-- An update that is not refused leads to a depiction of another sketch of the root. -/
theorem Depicts.update (h : R.Depicts r k)
    (he : Slot.refusals (r.scene R.size c) (R.context.diff c) R.layout.root k.slots = none) :
    (∃ stats, (r.update R c).result = .ok stats) ∧ ∃ tree retained k',
      (r.update R c).rendering =
        { R with tree := tree, retained := retained, context := c } ∧
      (r.update R c).rendering.Depicts r k' ∧
      ((r.scene R.size R.context).Agree (r.scene R.size c) (R.context.diff c) →
        R.Current (r.scene R.size R.context) k →
        (r.update R c).rendering.Current (r.scene R.size c) k' ∧
        ∀ past, R.PaintedSince (r.scene R.size R.context :: past) (r.scene R.size c).stage k →
          (r.update R c).rendering.PaintedSince
            (r.scene R.size c :: r.scene R.size R.context :: past) (r.scene R.size c).stage k') := by
  obtain ⟨slots, p, hrun, hu⟩ := h.run_refresh c (R.context.diff c)
  rw [he] at hrun
  obtain ⟨hresult, hrendering⟩ := Renderer.update_of_refresh_ok hrun
  obtain ⟨ks', rfl, hn⟩ := hu.renewed (by rwa [flatMap_singleton])
  obtain ⟨k', rfl⟩ : ∃ k', ks' = [k'] := length_eq_one_iff.mp (by
    have hlength := congrArg List.length hn.views
    simpa using hlength)
  have hview : k'.view = k.view := by simpa using hn.views
  have hground : k'.ground = k.ground := by simpa using hn.ground
  have hstrokes : ∀ g, R.layout.strokes g k' = R.layout.strokes g k := by
    intro g
    have hst : k'.strokes = k.strokes := by simpa using hn.strokes
    rw [Layout.strokes, Layout.strokes, hst, hview]
  refine ⟨hresult, p.tree, _, k', hrendering, ?_, fun ha hc => ?_⟩
  · rw [hrendering]
    refine ⟨?_, h.view.trans hview.symm, flatMap_singleton .., ?_, hn.placed⟩
    · exact (forall₂_cons.mp hn.drawn).1
    · simp only [hstrokes, map_map]
      exact h.properties
  · rw [hrendering]
    have hcurrent : ∀ a ∈ [k], Sketch.Current (r.scene R.size R.context) a := fun _ hk =>
      mem_singleton.mp hk ▸ hc.slots
    refine ⟨⟨fun b hb => ?_, hn.current _ ha hcurrent k' mem_cons_self⟩, fun past hpaint => ⟨?_, ?_⟩⟩
    · obtain ⟨b, hmem, rfl⟩ := mem_map.mp hb
      exact BoundProperty.next_eq ha (hc.properties b hmem)
    · intro v hv name
      rw [hground] at hv
      rw [hu.written v (by rwa [flatMap_singleton]), hpaint.ground v hv,
        BoundProperty.foldl_rewritten_eq ha h.properties hc.properties, hstrokes]
      rfl
    · exact hn.painted _ past ha hcurrent
        (fun _ hk => mem_singleton.mp hk ▸ hpaint.nested) k' mem_cons_self

end Rendering

end Widgetry
