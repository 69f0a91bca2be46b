import Widgetry.Proofs.View.Emission

/-!
# Building

How a build goes on: each element opens a view and builds what is below it. Elements built one after
another below a view lay out one sketch each, up to the first one that is refused; then no view that
was there before has changed but the one they are appended to.
-/

namespace Widgetry

open List

variable {w : Nat} {g : Stage} {o : Occurrence} {f : Frame} {k : Sketch}

namespace ViewTree

/-- Views were added and the others left as they were. -/
structure Extends (t u : ViewTree) : Prop where
  size : t.size ≤ u.size
  same : ∀ v < t.size, u.view? v = t.view? v
  sorted : t.Sorted → u.Sorted

/-- Views were added, some of them as children of a view that was there; the others were left as
they were. -/
structure Grows (t u : ViewTree) (w : Nat) (done : List Nat) : Prop where
  size : t.size ≤ u.size
  same : ∀ v < t.size, v ≠ w → u.view? v = t.view? v
  outline : u.outline? w = (t.outline? w).map fun y => (y.1, y.2 ++ done)
  property : ∀ name, u.property? w name = t.property? w name
  new : ∀ d ∈ done, t.size ≤ d
  sorted : t.Sorted → u.Sorted

theorem extends_refl (t : ViewTree) : t.Extends t := ⟨Nat.le_refl _, fun _ _ => rfl, id⟩

variable {t u u' : ViewTree} {done : List Nat}

theorem Extends.replay {ops : List ViewOp} (h : t.Extends u) (hops : ∀ op ∈ ops, t.size ≤ op.view) :
    t.Extends (u.replay ops) where
  size := by
    rw [size_replay]
    exact Nat.le_trans h.size (Nat.le_add_right _ _)
  same v hv := by
    rw [← h.same v hv]
    refine view?_replay_of_ne (Nat.lt_of_lt_of_le hv h.size) fun op hop he => ?_
    have := hops op hop
    omega
  sorted hs := (h.sorted hs).replay ops

theorem grows_refl (t : ViewTree) (w : Nat) : t.Grows t w [] where
  size := Nat.le_refl _
  same _ _ _ := rfl
  outline := by cases t.outline? w <;> simp
  property _ := rfl
  new _ h := by simp at h
  sorted := id

theorem Grows.extend (hw : w < t.size) (h : t.Grows u w done) (h' : u.Extends u') :
    t.Grows u' w done where
  size := Nat.le_trans h.size h'.size
  same v hv hvw := (h'.same v (Nat.lt_of_lt_of_le hv h.size)).trans (h.same v hv hvw)
  outline := by
    rw [outline?, h'.same w (Nat.lt_of_lt_of_le hw h.size)]
    exact h.outline
  property name := by
    rw [property?, h'.same w (Nat.lt_of_lt_of_le hw h.size)]
    exact h.property name
  new := h.new
  sorted hs := h'.sorted (h.sorted hs)

theorem Grows.trans {more : List Nat} (h : t.Grows u w done) (h' : u.Grows u' w more) :
    t.Grows u' w (done ++ more) where
  size := Nat.le_trans h.size h'.size
  same v hv hvw := (h'.same v (Nat.lt_of_lt_of_le hv h.size) hvw).trans (h.same v hv hvw)
  outline := by
    rw [h'.outline, h.outline]
    cases t.outline? w <;> simp
  property name := (h'.property name).trans (h.property name)
  new d hd := by
    rcases mem_append.mp hd with hd | hd
    · exact h.new d hd
    · exact Nat.le_trans h.size (h'.new d hd)
  sorted hs := h'.sorted (h.sorted hs)

theorem Extends.grow (h : t.Extends u) (hw : t.size ≤ w) (h' : u.Grows u' w done) :
    t.Extends u' where
  size := Nat.le_trans h.size h'.size
  same v hv := (h'.same v (Nat.lt_of_lt_of_le hv h.size) (by omega)).trans (h.same v hv)
  sorted hs := h'.sorted (h.sorted hs)

theorem Extends.append {d : Nat} (h : t.Extends u) (hw : w < t.size) (hd : t.size ≤ d) :
    t.Grows (u.apply (.append w d)) w [d] where
  size := by rw [size_apply]; exact Nat.le_trans h.size (Nat.le_add_right _ _)
  same v hv hvw :=
    (view?_apply_of_ne u (Nat.lt_of_lt_of_le hv h.size)
      (show (ViewOp.append w d).view ≠ v from Ne.symm hvw)).trans (h.same v hv)
  outline := by
    rw [outline?, apply, view?_modify, if_pos rfl, outline?, h.same w hw]
    cases t.view? w <;> rfl
  property name := by
    rw [apply, property?_modify u (by simp) w w name, property?, h.same w hw]
    rfl
  new d' hd' := mem_singleton.mp hd' ▸ hd
  sorted hs := (h.sorted hs).apply _

end ViewTree

variable {kind : SlotKind}

namespace Occurrence

theorem frame_eq_ok (h : o.frame g = .ok f) :
    ∃ mods own slot, Modifier.build g.env o.element = .ok mods ∧
      o.own g mods (o.spacing mods) = .ok own ∧ o.slotKind g (o.spacing mods) = .ok slot ∧
      f = o.composed g mods (o.spacing mods) own slot := by
  unfold frame at h
  cases hm : Modifier.build g.env o.element with
  | error e => simp [hm, bind, Except.bind] at h
  | ok mods =>
    cases ho : o.own g mods (o.spacing mods) with
    | error e => simp [hm, ho, bind, Except.bind] at h
    | ok own =>
      cases hs : o.slotKind g (o.spacing mods) with
      | error e => simp [hm, ho, hs, bind, Except.bind] at h
      | ok slot =>
        simp only [hm, ho, hs, bind, Except.bind, pure, Except.pure, Except.ok.injEq] at h
        exact ⟨mods, own, slot, rfl, ho, hs, h.symm⟩

theorem kind_of_slotKind {spacing : Option Formula} (h : o.slotKind g spacing = .ok (some kind)) :
    o.element.kind = .forEach ∨ o.element.kind = .conditional := by
  unfold slotKind at h
  split at h
  · rename_i hk
    exact .inl hk
  · rename_i hk
    exact .inr hk
  · simp at h

theorem content_eq_none_of_slot (h : o.frame g = .ok f) (hs : f.slot = some kind) :
    f.content = none := by
  obtain ⟨mods, own, slot, -, -, hslot, rfl⟩ := frame_eq_ok h
  obtain rfl : slot = some kind := hs
  show g.content o.flow o.element.kind = none
  rcases kind_of_slotKind hslot with hk | hk <;> rw [hk] <;> rfl

end Occurrence

/-- The gap between the children of a slot. -/
def SlotKind.spacing : SlotKind → Option Formula
  | .forEach _ _ spacing => spacing
  | .conditional _ => none

theorem Occurrence.between_of_slot (h : o.frame g = .ok f) (hs : f.slot = some kind) :
    f.between = g.gapBetween o.flow kind.spacing := by
  obtain ⟨mods, own, slot, -, -, hslot, rfl⟩ := frame_eq_ok h
  obtain rfl : slot = some kind := hs
  show (if o.element.kind.stacks || o.element.kind = .forEach then
    g.gapBetween o.flow (o.spacing mods) else none) = _
  unfold slotKind at hslot
  split at hslot
  · rename_i hk
    obtain rfl := Option.some.inj (Except.ok.inj hslot)
    simp [hk, SlotKind.spacing]
  · rename_i hk
    cases hf : o.formula g .condition .bool with
    | error e => simp [hf, bind, Except.bind] at hslot
    | ok condition =>
      simp only [hf, bind, Except.bind, pure, Except.pure, Except.ok.injEq,
        Option.some.injEq] at hslot
      subst hslot
      simp [hk, Kind.stacks, SlotKind.spacing, Stage.gapBetween_none]
  · simp at hslot

theorem Sketch.Drawn.shaped (h : k.Drawn g o) : k.Shaped := by
  induction k using inductionOn generalizing o with
  | plain v inner f kids ih =>
    cases h with
    | plain hframe hslot hinner hkids =>
      rw [Shaped]
      refine ⟨hinner, fun k hk => ?_⟩
      obtain ⟨p, -, hp⟩ := exists_mem_of_forall₂ hkids hk
      exact ih k hk hp
  | slot f site key properties kids ih =>
    cases h with
    | slot hframe hslot hproperties hkids =>
      rw [Shaped]
      refine ⟨Occurrence.content_eq_none_of_slot hframe hslot, fun k hk => ?_⟩
      obtain ⟨p, -, hp⟩ := exists_mem_of_forall₂ hkids hk
      exact ih k hk hp

namespace Sketch

/-- Keys and retained values are those of a scene. -/
def Current (s : Scene) : Sketch → Prop
  | .plain _ _ _ kids => ∀ k ∈ kids, k.Current s
  | .slot _ site key properties kids =>
      key = s.key site.kind ∧
        (∀ b ∈ properties, b.last = s.encoded? b.formula b.encoding) ∧
        ∀ k ∈ kids, k.Current s

def trace (s : Scene) (k : Sketch) : Trace :=
  ⟨k.ops s, k.strokes.filterMap (Stroke.bound? s), k.slots⟩

/-- What building children and appending them to a view adds to a canvas. -/
def fillingTrace (s : Scene) (w : Nat) (kids : List Sketch) : Trace :=
  ⟨filling s w kids, (kids.flatMap strokes).filterMap (Stroke.bound? s), kids.flatMap slots⟩

theorem fillingTrace_cons (s : Scene) (w : Nat) (k : Sketch) (kids : List Sketch) :
    fillingTrace s w (k :: kids) =
      k.trace s ++ (.op (.append w k.view) ++ fillingTrace s w kids) := by
  apply Trace.ext <;> simp [fillingTrace, trace, filling, Trace.op]

end Sketch

namespace Build

def occurrence (s : Scene) (o : Occurrence) : Build Nat :=
  element s o.path o.item o.around o.inherited o.element

def occurrences (s : Scene) (w : Nat) : List Occurrence → Build (List Nat)
  | [] => pure []
  | o :: os => do
      let v ← occurrence s o
      perform (.append w v)
      let vs ← occurrences s w os
      return v :: vs

/-- Building an element lays out a sketch drawn for it, or is refused. -/
def Draws (s : Scene) (o : Occurrence) : Prop :=
  ∀ c, match o.refusal s with
    | none => ∃ k : Sketch, k.Drawn s.stage o ∧ k.Current s ∧
        Sketch.Numbered c.tree.size k.labels ∧ Emits (occurrence s o) c k.view (k.trace s)
    | some e => ∃ c', (occurrence s o).run c = (.error e, c') ∧ c.tree.Extends c'.tree

variable {s : Scene} {c : Canvas} {m : Build Unit}

theorem size_add_trace (hk : k.Shaped) (c : Canvas) :
    (c.add (k.trace s)).tree.size = c.tree.size + k.labels.length := by
  rw [Canvas.tree_add, ViewTree.size_replay, Sketch.trace, Sketch.created_ops k hk]

theorem extends_add_trace (h : Sketch.Numbered c.tree.size k.labels) :
    c.tree.Extends (c.add (k.trace s)).tree :=
  c.tree.extends_refl.replay fun op hop => (h.mem_iff.mp (Sketch.view_of_mem_ops k op hop)).1

/-- Building elements and appending them to a view lays out sketches drawn for them. When one is
refused, those before it were appended. -/
theorem occurrences_run {os : List Occurrence} (hos : ∀ o ∈ os, Draws s o) (c : Canvas)
    (hw : w < c.tree.size) :
    match os.findSome? (Occurrence.refusal s) with
    | none => ∃ ks, Forall₂ (Sketch.Drawn s.stage) os ks ∧ (∀ k ∈ ks, k.Current s) ∧
        Sketch.Numbered c.tree.size (ks.flatMap Sketch.labels) ∧
        Emits (occurrences s w os) c (ks.map Sketch.view) (Sketch.fillingTrace s w ks)
    | some e => ∃ c' done, (occurrences s w os).run c = (.error e, c') ∧
        c.tree.Grows c'.tree w done ∧
        (done = [] ↔ ∃ o ∈ os.head?, (o.refusal s).isSome) := by
  induction os generalizing c with
  | nil => exact ⟨[], .nil, by simp, rfl, emits_pure [] c⟩
  | cons o os ih =>
    have hdraw := hos o mem_cons_self c
    cases ho : o.refusal s with
    | some e =>
      simp only [ho] at hdraw
      obtain ⟨c', hrun, hext⟩ := hdraw
      rw [List.findSome?_cons_of_isSome (by simp [ho])]
      simp only [ho]
      exact ⟨c', [], run_bind_of_error hrun, (c.tree.grows_refl w).extend hw hext, by simp [ho]⟩
    | none =>
      simp only [ho] at hdraw
      obtain ⟨k, hk, hcur, hnum, hemits⟩ := hdraw
      have hsize := size_add_trace (s := s) hk.shaped c
      have hview := (hnum.mem_iff.mp k.view_mem_labels).1
      have hgrow : c.tree.Grows ((c.add (k.trace s)).add (.op (.append w k.view))).tree w [k.view] :=
        (extends_add_trace hnum).append hw hview
      have hrun : (occurrences s w (o :: os)).run c =
          (occurrences s w os >>= fun vs => pure (k.view :: vs)).run
            ((c.add (k.trace s)).add (.op (.append w k.view))) := by
        rw [occurrences, hemits.run_bind, (emits_perform _ _).run_bind]
      rw [List.findSome?_cons_of_isNone (by simp [ho])]
      have hrest := ih (fun o ho => hos o (mem_cons_of_mem _ ho))
        ((c.add (k.trace s)).add (.op (.append w k.view))) (Nat.lt_of_lt_of_le hw hgrow.size)
      cases hos : os.findSome? (Occurrence.refusal s) with
      | some e =>
        simp only [hos] at hrest
        obtain ⟨c', done, hrun', hgrow', -⟩ := hrest
        refine ⟨c', k.view :: done, ?_, hgrow.trans hgrow', by simp [ho]⟩
        rw [hrun]
        exact run_bind_of_error hrun'
      | none =>
        simp only [hos] at hrest
        obtain ⟨ks, hks, hcurs, hnums, hemits'⟩ := hrest
        refine ⟨k :: ks, .cons hk hks, ?_, ?_, ?_⟩
        · intro j hj
          rcases mem_cons.mp hj with rfl | hj
          · exact hcur
          · exact hcurs j hj
        · rw [flatMap_cons, Sketch.numbered_append]
          refine ⟨hnum, ?_⟩
          have hsame : ((c.add (k.trace s)).add (.op (.append w k.view))).tree.size =
              (c.add (k.trace s)).tree.size :=
            ViewTree.size_apply (c.add (k.trace s)).tree (.append w k.view)
          rwa [hsame, hsize] at hnums
        · rw [Sketch.fillingTrace_cons, Emits, hrun, hemits'.map, Canvas.add_append,
            Canvas.add_append]
          rfl

theorem elements_eq (s : Scene) (path : List Nat) (item : List Segment) (flow : Flow)
    (inherited : List (String × String)) (w i : Nat) (es : List Element) :
    elements s path item flow inherited w i es =
      occurrences s w ((es.zipIdx i).map fun (e, i) => ⟨path ++ [i], item, flow, inherited, e⟩) := by
  induction es generalizing i with
  | nil =>
    rw [elements]
    rfl
  | cons e es ih =>
    rw [elements, ih]
    rfl

theorem mapM_eq_occurrences {α : Type} (s : Scene) (w : Nat) (f : α → Occurrence) (xs : List α) :
    (xs.mapM fun x => do
      let v ← occurrence s (f x)
      perform (.append w v)
      return v) = occurrences s w (xs.map f) := by
  induction xs with
  | nil => rfl
  | cons x xs ih =>
    rw [mapM_cons, ih]
    simp [occurrences]

theorem gapOnChildren_nil (s : Scene) (flow : Flow) (spacing : Option Formula) :
    gapOnChildren s [] flow spacing = pure () := by
  unfold gapOnChildren
  cases spacing with
  | none => rfl
  | some f => cases s.target.gapPlace flow <;> rfl


theorem fill_eq (s : Scene) (site : SlotSite) (key : SlotKey) (children : List Element) :
    fill s site key children =
      (occurrences s site.view (site.selected key children) >>= fun views =>
        gapOnChildren s views site.flow site.kind.spacing) := by
  obtain ⟨view, element, item, flow, inherited, kind⟩ := site
  have hnone : (pure () : Build Unit) = (occurrences s view [] >>= fun views =>
      gapOnChildren s views flow kind.spacing) := by
    rw [occurrences, pure_bind, gapOnChildren_nil]
  have hone : ∀ o, (occurrence s o >>= fun v => perform (.append view v)) =
      (occurrences s view [o] >>= fun _ => (pure () : Build Unit)) := by
    intro o
    simp [occurrences]
  cases children with
  | nil => cases kind <;> cases key <;> simp only [fill, SlotSite.selected] <;> exact hnone
  | cons first rest =>
    cases kind with
    | forEach items limit spacing =>
      cases key with
      | branch taken => cases items <;> exact hnone
      | count n =>
        cases items with
        | none => exact hnone
        | some items =>
          simp only [fill, SlotSite.selected]
          rw [← mapM_eq_occurrences]
          rfl
    | conditional condition =>
      cases key with
      | count n => exact hnone
      | branch taken =>
        cases taken with
        | true => exact hone ⟨element ++ [0], item, flow, inherited, first⟩
        | false =>
          cases rest with
          | nil => exact hnone
          | cons second rest => exact hone ⟨element ++ [1], item, flow, inherited, second⟩

/-- What is built for an element once its modifiers are applied. -/
def interior (s : Scene) (o : Occurrence) (mods : List (Modifier Term)) (v inner : Nat)
    (aligned : List (String × String)) : Build Unit :=
  let handed :=
    (if o.element.kind = .stack then s.target.overlayChildProperties else []) ++ aligned
  match o.element.kind with
  | .label => label s o.item o.element v
  | .image => image s o.item o.element v
  | .spacer => spacer s o.item o.around o.element v
  | .divider => divider s o.item o.around mods o.element v
  | .forEach => do
      gapOnContainer s v o.flow (o.spacing mods)
      let site : SlotSite := ⟨v, o.path, o.item, o.flow, handed,
        .forEach (items? o.item o.element) o.element.limit? (o.spacing mods)⟩
      slot site (s.key site.kind) (fill s site (s.key site.kind) o.element.children)
  | .conditional => do
      let condition ← formula? s o.item o.element .condition .bool
      let site : SlotSite := ⟨v, o.path, o.item, o.around, o.inherited,
        .conditional (condition.getD ⟨o.item, .literal (.bool false)⟩)⟩
      slot site (s.key site.kind) (fill s site (s.key site.kind) o.element.children)
  | _ => do
      let views ← occurrences s inner (o.element.children.zipIdx.map fun (e, i) =>
        ⟨o.path ++ [i], o.item, o.flow, handed, e⟩)
      gapOnContainer s inner o.flow (o.spacing mods)
      gapOnChildren s views o.flow (o.spacing mods)

theorem occurrence_eq (s : Scene) (o : Occurrence) :
    occurrence s o = do
      let mods ← check (Modifier.build s.stage.env o.element)
      let v ← create (s.target.tag o.element.kind)
      setAll v o.inherited
      let inner ← content s o.element.kind o.flow v
      let aligned ← applyModifiers s o.item o.element.kind v inner o.flow mods
      interior s o mods v inner aligned
      return v := by
  obtain ⟨path, item, around, inherited, ⟨kind, id, properties, children, place⟩⟩ := o
  rw [occurrence, element]
  cases kind <;> simp only [interior, elements_eq, bind_assoc] <;> rfl

def contentTrace (s : Scene) (v w : Nat) : Option (String × List (String × String)) → Trace
  | none => .empty
  | some c => .op (.create w c.1) ++
      (.strokes s (c.2.map fun p => ⟨[w], .put p.1 p.2⟩) ++ .op (.append v w))

def openingTrace (s : Scene) (f : Frame) (v w : Nat) : Trace :=
  ⟨f.opening s v w, (f.strokes v w).filterMap (Stroke.bound? s), []⟩

theorem flatMap_sets_puts (s : Scene) (v : Nat) (ps : List (String × String)) :
    (ps.flatMap fun p => Stroke.sets s ⟨[v], .put p.1 p.2⟩) =
      ps.map fun p => .set v p.1 p.2 := by
  rw [map_eq_flatMap]
  rfl

theorem openingTrace_eq (s : Scene) (f : Frame) (v w : Nat) :
    openingTrace s f v w = .op (.create v f.tag) ++
      (.strokes s (f.base.map fun p => ⟨[v], .put p.1 p.2⟩) ++
        (contentTrace s v w f.content ++
          .strokes s (f.marks.map fun m => ⟨[if m.1 then w else v], m.2⟩))) := by
  cases hc : f.content with
  | none =>
    apply Trace.ext <;>
      simp [openingTrace, Frame.opening, Frame.strokes, hc, contentTrace, Trace.op, Trace.empty,
        Trace.strokes, flatMap_map, flatMap_sets_puts]
  | some c =>
    apply Trace.ext <;>
      simp [openingTrace, Frame.opening, Frame.strokes, hc, contentTrace, Trace.op,
        Trace.strokes, flatMap_map, flatMap_sets_puts]

theorem emits_content (s : Scene) (kind : Kind) (flow : Flow) (v : Nat) (c : Canvas) :
    Emits (content s kind flow v) c ((s.stage.content flow kind).elim v fun _ => c.tree.size)
      (.strokes s ((s.stage.base flow kind).map fun p => ⟨[v], .put p.1 p.2⟩) ++
        contentTrace s v c.tree.size (s.stage.content flow kind)) := by
  cases kind with
  | scrollView =>
    have hsize : (c.add (.strokes s ((s.target.scrollProperties flow).map fun p =>
        ⟨[v], .put p.1 p.2⟩))).tree.size = c.tree.size := by
      rw [Canvas.tree_add, ViewTree.size_replay, Trace.strokes, Sketch.created_strokes]
      rfl
    have hcreate := emits_create s.target.scrollContentTag (c.add (.strokes s
      ((s.target.scrollProperties flow).map fun p => ⟨[v], .put p.1 p.2⟩)))
    rw [hsize] at hcreate
    exact (emits_puts s v _ c).next (hcreate.bind ((emits_puts s _ _ _).next
      ((emits_perform _ _).returns _)))
  | column | row | stack => exact ((emits_puts s v _ c).returns v).congr (Trace.append_empty _).symm
  | forEach => exact ((emits_puts s v _ c).returns v).congr (Trace.append_empty _).symm
  | conditional => exact ((emits_puts s v _ c).returns v).congr (Trace.append_empty _).symm
  | _ => exact emits_pure v c

/-- The view around the children, of an element whose view has number `n`. -/
def innerView (s : Scene) (o : Occurrence) (n : Nat) : Nat :=
  (s.stage.content o.flow o.element.kind).elim n fun _ => n + 1

theorem contentTrace_innerView (s : Scene) (o : Occurrence) (n : Nat) :
    contentTrace s n (innerView s o n) (s.stage.content o.flow o.element.kind) =
      contentTrace s n (n + 1) (s.stage.content o.flow o.element.kind) := by
  unfold innerView
  cases s.stage.content o.flow o.element.kind <;> rfl

/-- An element whose modifiers are accepted has its views opened before anything else. -/
theorem occurrence_run {mods : List (Modifier Term)}
    (hm : Modifier.build s.stage.env o.element = .ok mods) (slot : Option SlotKind) (c : Canvas) :
    (occurrence s o).run c =
      (interior s o mods c.tree.size (innerView s o c.tree.size)
          (mods.flatMap fun m => (s.stage.modified o.item o.element.kind o.flow m).2) >>=
        fun _ => pure c.tree.size).run
      (c.add (openingTrace s (o.composed s.stage mods (o.spacing mods) [] slot) c.tree.size
        (innerView s o c.tree.size))) := by
  generalize hn : c.tree.size = n
  have hcreate : Emits (create (s.target.tag o.element.kind)) c n
      (.op (.create n (s.target.tag o.element.kind))) := hn ▸ emits_create _ c
  have hsize : ((c.add (.op (.create n (s.target.tag o.element.kind)))).add
      (.strokes s (o.inherited.map fun p => ⟨[n], .put p.1 p.2⟩))).tree.size = n + 1 := by
    rw [Canvas.tree_add, ViewTree.size_replay, Trace.strokes, Sketch.created_strokes,
      Canvas.tree_add, ViewTree.size_replay, hn]
    rfl
  have hcontent := emits_content s o.element.kind o.flow n
    ((c.add (.op (.create n (s.target.tag o.element.kind)))).add
      (.strokes s (o.inherited.map fun p => ⟨[n], .put p.1 p.2⟩)))
  rw [hsize] at hcontent
  rw [occurrence_eq, (emits_check hm c).run_bind, Canvas.add_empty, hcreate.run_bind,
    (emits_puts s n o.inherited _).run_bind, hcontent.run_bind,
    (emits_applyModifiers s o.item o.element.kind n _ o.flow mods _).run_bind]
  simp only [openingTrace_eq, Occurrence.composed, map_append, Trace.strokes_append,
    map_nil, append_nil, contentTrace_innerView, Canvas.add_append]
  rfl

/-- Filling a slot lays out sketches drawn for the children selected, with the gap between them. -/
theorem fill_run {site : SlotSite} {key : SlotKey} {children : List Element}
    (hf : f.between = s.stage.gapBetween site.flow site.kind.spacing)
    (hos : ∀ o ∈ site.selected key children, Draws s o) (c : Canvas) (hw : site.view < c.tree.size) :
    match (site.selected key children).findSome? (Occurrence.refusal s) with
    | none => ∃ kids, Forall₂ (Sketch.Drawn s.stage) (site.selected key children) kids ∧
        (∀ k ∈ kids, k.Current s) ∧
        Sketch.Numbered c.tree.size (kids.flatMap Sketch.labels) ∧
        Emits (fill s site key children) c ()
          (Sketch.fillingTrace s site.view kids ++ .strokes s (f.gap (kids.map Sketch.view)))
    | some e => ∃ c' done, (fill s site key children).run c = (.error e, c') ∧
        c.tree.Grows c'.tree site.view done ∧
        (done = [] ↔ ∃ o ∈ (site.selected key children).head?, (o.refusal s).isSome) := by
  have hrun := occurrences_run hos c hw
  rw [fill_eq]
  cases h : (site.selected key children).findSome? (Occurrence.refusal s) with
  | none =>
    simp only [h] at hrun
    obtain ⟨kids, hkids, hcurrent, hnumbered, hemits⟩ := hrun
    exact ⟨kids, hkids, hcurrent, hnumbered, hemits.bind (emits_gapOnChildren s hf _ _)⟩
  | some e =>
    simp only [h] at hrun
    obtain ⟨c', done, hrun, hgrows, hdone⟩ := hrun
    exact ⟨c', done, run_bind_of_error hrun, hgrows, hdone⟩

theorem run_slot (m : Build Unit) (c : Canvas) (site : SlotSite) (key : SlotKey) :
    (slot site key m).run c = match m.run { c with retained := .empty } with
      | (.ok (), c') => (.ok (), { c' with retained := ⟨c.retained.properties, c.retained.slots ++
          [⟨site, key, c'.retained.properties, c'.retained.slots⟩]⟩ })
      | (.error e, c') => (.error e, { c' with retained := c.retained }) := rfl

theorem emits_slot {e : Trace} (site : SlotSite) (key : SlotKey)
    (h : Emits m { c with retained := .empty } () e) :
    Emits (slot site key m) c () ⟨e.ops, [], [⟨site, key, e.properties, e.slots⟩]⟩ := by
  rw [Emits, run_slot, h]
  simp [Canvas.add, Retained.empty]

theorem run_slot_of_error {c' : Canvas} {e : Error} (site : SlotSite) (key : SlotKey)
    (h : m.run { c with retained := .empty } = (.error e, c')) :
    (slot site key m).run c = (.error e, { c' with retained := c.retained }) := by
  rw [run_slot, h]

end Build

end Widgetry
