import Widgetry.Proofs.View.Building

/-!
# Drawing

Building an element either lays out a sketch that is drawn for it, with the next numbers as labels, or
is refused with the error of the element, and then no view that was there before has changed.
-/

namespace Widgetry

open List

namespace Stroke

theorem map_stroke_bound (s : Scene) (ks : List Stroke) :
    (ks.filterMap (bound? s)).map BoundProperty.stroke = ks.filter isBound := by
  induction ks with
  | nil => rfl
  | cons k ks ih =>
    obtain ⟨views, mark⟩ := k
    cases mark with
    | put name value =>
      rw [filterMap_cons_none rfl, filter_cons_of_neg (by simp [isBound]), ih]
    | follow names encoding f =>
      cases hb : (names.isEmpty || f.deps.isEmpty) with
      | true =>
        rw [filterMap_cons_none (by simp [bound?, hb]),
          filter_cons_of_neg (by simp [isBound, hb]), ih]
      | false =>
        rw [filterMap_cons_some (by simp only [bound?, hb]; rfl),
          filter_cons_of_pos (by simp [isBound, hb]), map_cons, ih]
        rfl

theorem last_of_mem_bound {s : Scene} {ks : List Stroke} {b : BoundProperty}
    (h : b ∈ ks.filterMap (bound? s)) : b.last = s.encoded? b.formula b.encoding := by
  obtain ⟨k, -, hk⟩ := mem_filterMap.mp h
  unfold bound? at hk
  split at hk
  · simp at hk
  · split at hk
    · simp at hk
    · cases hk
      rfl

end Stroke

variable {o : Occurrence}

namespace Occurrence

variable {g : Stage} {mods : List (Modifier Term)} {own : List Mark} {e : Error}

theorem frame_of_ok {slot : Option SlotKind} (hm : Modifier.build g.env o.element = .ok mods)
    (ho : o.own g mods (o.spacing mods) = .ok own) (hs : o.slotKind g (o.spacing mods) = .ok slot) :
    o.frame g = .ok (o.composed g mods (o.spacing mods) own slot) := by
  simp [frame, hm, ho, hs, bind, Except.bind, pure, Except.pure]

theorem frame_of_own_error (hm : Modifier.build g.env o.element = .ok mods)
    (ho : o.own g mods (o.spacing mods) = .error e) : o.frame g = .error e := by
  simp [frame, hm, ho, bind, Except.bind]

theorem frame_of_slotKind_error (hm : Modifier.build g.env o.element = .ok mods)
    (ho : o.own g mods (o.spacing mods) = .ok own) (hs : o.slotKind g (o.spacing mods) = .error e) :
    o.frame g = .error e := by
  simp [frame, hm, ho, hs, bind, Except.bind]

end Occurrence

namespace Build

section Draws

variable {s : Scene} {o : Occurrence} {mods : List (Modifier Term)}

theorem openingTrace_own (own : List Mark) (slot : Option SlotKind) (v w : Nat) :
    openingTrace s (o.composed s.stage mods (o.spacing mods) own slot) v w =
      openingTrace s (o.composed s.stage mods (o.spacing mods) [] slot) v w ++
        .strokes s (own.map (Stroke.mk [v])) := by
  simp only [openingTrace_eq, Occurrence.composed, map_append, Trace.strokes_append,
    map_nil, append_nil, Trace.append_assoc, map_map]
  rfl

variable {f : Frame} {c : Canvas} {kind : Kind}

theorem extends_opening {w : Nat} (hw : c.tree.size ≤ w) :
    c.tree.Extends (c.add (openingTrace s f c.tree.size w)).tree := by
  refine c.tree.extends_refl.replay fun op hop => ?_
  rcases Frame.view_of_mem_opening hop with h | h <;> omega

theorem size_le_innerView (n : Nat) : n ≤ innerView s o n := by
  unfold innerView
  cases s.stage.content o.flow o.element.kind with
  | none => exact Nat.le_refl n
  | some c => exact Nat.le_succ n

theorem extends_strokes {t : ViewTree} (h : t.Extends c.tree) (ms : List Mark) :
    t.Extends (c.add (.strokes s (ms.map (Stroke.mk [t.size])))).tree := by
  refine h.replay fun op hop => ?_
  obtain ⟨k, hk, hop⟩ := mem_flatMap.mp hop
  obtain ⟨m, -, rfl⟩ := mem_map.mp hk
  obtain ⟨v, hv, name, value, rfl⟩ := Stroke.mem_sets hop
  exact Nat.le_of_eq (mem_singleton.mp hv).symm

theorem trace_plain (v : Nat) (inner : Option Nat) (f : Frame) (kids : List Sketch) :
    (Sketch.plain v inner f kids).trace s = openingTrace s f v (inner.getD v) ++
      (Sketch.fillingTrace s (inner.getD v) kids ++
        (.strokes s (f.around.toList.map (Stroke.mk [inner.getD v])) ++
          .strokes s (f.gap (kids.map Sketch.view)))) := by
  apply Trace.ext <;>
    simp [Sketch.trace, Sketch.ops_plain, Sketch.strokes, Sketch.slots, openingTrace,
      Sketch.fillingTrace, Trace.strokes]

theorem stacks_of_leaf (h : kind ∈ [Kind.label, .image, .spacer, .divider]) :
    kind.stacks = false := by
  simp only [mem_cons, not_mem_nil, or_false] at h
  rcases h with rfl | rfl | rfl | rfl <;> rfl

theorem content_of_leaf (g : Stage) (flow : Flow)
    (h : kind ∈ [Kind.label, .image, .spacer, .divider]) : g.content flow kind = none := by
  simp only [mem_cons, not_mem_nil, or_false] at h
  rcases h with rfl | rfl | rfl | rfl <;> rfl

theorem slotKind_of_leaf (g : Stage) {o : Occurrence}
    (h : o.element.kind ∈ [Kind.label, .image, .spacer, .divider]) (spacing : Option Formula) :
    o.slotKind g spacing = .ok none := by
  unfold Occurrence.slotKind
  split
  · rename_i hk
    simp [hk] at h
  · rename_i hk
    simp [hk] at h
  · rfl

theorem draws_leaf (hm : Modifier.build s.stage.env o.element = .ok mods)
    (hleaf : o.element.kind ∈ [Kind.label, .image, .spacer, .divider])
    (hmarks : ∀ v inner aligned, Marks s (interior s o mods v inner aligned) v
      (o.own s.stage mods (o.spacing mods))) : Draws s o := by
  have hkind : o.element.kind.stacks = false := stacks_of_leaf hleaf
  have hcontent := content_of_leaf s.stage o.flow hleaf
  have hslot := slotKind_of_leaf s.stage hleaf (o.spacing mods)
  intro c
  have hrun := occurrence_run hm none c
  have hmark := hmarks c.tree.size (innerView s o c.tree.size)
    (mods.flatMap fun m => (s.stage.modified o.item o.element.kind o.flow m).2)
    (c.add (openingTrace s (o.composed s.stage mods (o.spacing mods) [] none) c.tree.size
      (innerView s o c.tree.size)))
  cases ho : o.own s.stage mods (o.spacing mods) with
  | error e =>
    rw [Occurrence.refusal_of_frame_error (Occurrence.frame_of_own_error hm ho)]
    simp only [ho] at hmark
    obtain ⟨ms, hms⟩ := hmark
    refine ⟨_, hrun.trans (run_bind_of_error hms), ?_⟩
    exact extends_strokes (extends_opening (size_le_innerView _)) ms
  | ok own =>
    have hframe := Occurrence.frame_of_ok hm ho hslot
    have hkids : o.kids s (o.composed s.stage mods (o.spacing mods) own none) = [] := by
      simp [Occurrence.kids, Occurrence.composed, Occurrence.members, hkind]
    rw [Occurrence.refusal_of_frame_ok hframe, hkids]
    simp only [ho] at hmark
    refine ⟨.plain c.tree.size none (o.composed s.stage mods (o.spacing mods) own none) [], ?_, ?_,
      ?_, ?_⟩
    · refine .plain hframe rfl (by simp [Occurrence.composed, hcontent]) ?_
      simp [Occurrence.members, hkind]
    · simp [Sketch.Current]
    · simp [Sketch.labels, Sketch.Numbered]
    · have hinner : innerView s o c.tree.size = c.tree.size := by simp [innerView, hcontent]
      have htrace : (Sketch.plain c.tree.size none (o.composed s.stage mods (o.spacing mods) own none)
          []).trace s = openingTrace s (o.composed s.stage mods (o.spacing mods) own none) c.tree.size
            c.tree.size := by
        rw [trace_plain]
        simp only [Occurrence.composed, hkind]
        exact Trace.append_empty _
      rw [htrace, openingTrace_own, Emits, hrun, hinner, Canvas.add_append]
      rw [hinner] at hmark
      exact hmark.returns _

theorem own_of_stacks (h : o.element.kind.stacks = true) (spacing : Option Formula) :
    o.own s.stage mods spacing = .ok [] := by
  unfold Occurrence.own
  cases hk : o.element.kind <;> simp_all [Kind.stacks]

theorem slotKind_of_stacks (h : o.element.kind.stacks = true) (spacing : Option Formula) :
    o.slotKind s.stage spacing = .ok none := by
  unfold Occurrence.slotKind
  cases hk : o.element.kind <;> simp_all [Kind.stacks]

theorem members_composed (h : o.element.kind.stacks = true) (own : List Mark)
    (slot : Option SlotKind) :
    o.members (o.composed s.stage mods (o.spacing mods) own slot) =
      o.element.children.zipIdx.map fun (e, i) => ⟨o.path ++ [i], o.item, o.flow,
        (if o.element.kind = .stack then s.target.overlayChildProperties else []) ++
          (mods.flatMap fun m => (s.stage.modified o.item o.element.kind o.flow m).2), e⟩ := by
  have hk : o.element.kind ≠ .conditional := by
    intro hk
    simp [hk, Kind.stacks] at h
  simp only [Occurrence.members, Occurrence.composed, Occurrence.handed, h, hk, if_true, if_false]
  rfl

theorem interior_of_stacks (h : o.element.kind.stacks = true) (v inner : Nat) (own : List Mark)
    (slot : Option SlotKind) :
    interior s o mods v inner
        (mods.flatMap fun m => (s.stage.modified o.item o.element.kind o.flow m).2) =
      (occurrences s inner (o.members (o.composed s.stage mods (o.spacing mods) own slot)) >>=
        fun views => gapOnContainer s inner o.flow (o.spacing mods) >>=
          fun _ => gapOnChildren s views o.flow (o.spacing mods)) := by
  rw [members_composed h]
  unfold interior
  cases hk : o.element.kind <;> simp_all [Kind.stacks]

theorem size_opening (f : Frame) (c : Canvas) (w : Nat) :
    (c.add (openingTrace s f c.tree.size w)).tree.size =
      c.tree.size + (1 + f.content.toList.length) := by
  rw [Canvas.tree_add, ViewTree.size_replay, openingTrace, Sketch.created_opening]
  simp [Nat.add_comm]

theorem numbered_opening {α : Type} {n : Nat} {content : Option α} {rest : List Nat}
    (h : Sketch.Numbered (n + (1 + content.toList.length)) rest) :
    Sketch.Numbered n (n :: ((content.map fun _ => n + 1).toList ++ rest)) := by
  cases content with
  | none => exact Sketch.numbered_cons.mpr ⟨rfl, h⟩
  | some c => exact Sketch.numbered_cons.mpr ⟨rfl, Sketch.numbered_cons.mpr ⟨rfl, h⟩⟩

theorem draws_stack (hm : Modifier.build s.stage.env o.element = .ok mods)
    (hkind : o.element.kind.stacks = true) (hkids : ∀ f, ∀ p ∈ o.kids s f, Draws s p) :
    Draws s o := by
  intro c
  have hslot := slotKind_of_stacks (s := s) hkind (o.spacing mods)
  have hframe := Occurrence.frame_of_ok hm (own_of_stacks hkind _) hslot
  have hrun := occurrence_run hm none c
  rw [interior_of_stacks hkind _ _ [] none] at hrun
  generalize hf : o.composed s.stage mods (o.spacing mods) [] none = f at hframe hrun
  have hkidsEq : o.kids s f = o.members f := by
    subst hf
    rfl
  have hcontent : f.content = s.stage.content o.flow o.element.kind := by
    subst hf
    rfl
  have haround : f.around = s.stage.gapAround o.flow (o.spacing mods) := by
    subst hf
    exact if_pos hkind
  have hbetween : f.between = s.stage.gapBetween o.flow (o.spacing mods) := by
    subst hf
    simp [Occurrence.composed, hkind]
  have hw : innerView s o c.tree.size < (c.add (openingTrace s f c.tree.size
      (innerView s o c.tree.size))).tree.size := by
    rw [size_opening, hcontent, innerView]
    cases s.stage.content o.flow o.element.kind <;> simp
  have hopening : c.tree.Extends (c.add (openingTrace s f c.tree.size
      (innerView s o c.tree.size))).tree := extends_opening (size_le_innerView _)
  have hmembers : ∀ p ∈ o.members f, Draws s p := fun p hp => hkids f p (hkidsEq ▸ hp)
  have hbelow := occurrences_run hmembers _ hw
  rw [Occurrence.refusal_of_frame_ok hframe, hkidsEq]
  cases hr : (o.members f).findSome? (Occurrence.refusal s) with
  | some e =>
    simp only [hr] at hbelow
    obtain ⟨c', done, hrun', hgrows, -⟩ := hbelow
    exact ⟨c', hrun.trans (run_bind_of_error (run_bind_of_error hrun')),
      hopening.grow (size_le_innerView _) hgrows⟩
  | none =>
    simp only [hr] at hbelow
    obtain ⟨ks, hks, hcurrent, hnumbered, hemits⟩ := hbelow
    have hinner : ((f.content.map fun _ => c.tree.size + 1).getD c.tree.size) =
        innerView s o c.tree.size := by
      rw [hcontent, innerView]
      cases s.stage.content o.flow o.element.kind <;> rfl
    refine ⟨.plain c.tree.size (f.content.map fun _ => c.tree.size + 1) f ks, ?_, ?_, ?_, ?_⟩
    · exact .plain hframe (by subst hf; rfl) (by simp) hks
    · rw [Sketch.Current]
      exact hcurrent
    · rw [size_opening] at hnumbered
      rw [Sketch.labels]
      exact numbered_opening hnumbered
    · rw [trace_plain, hinner, Emits, hrun, Canvas.add_append]
      have hinside := (hemits.bind (f := fun views =>
        gapOnContainer s (innerView s o c.tree.size) o.flow (o.spacing mods) >>= fun _ =>
          gapOnChildren s views o.flow (o.spacing mods))
        ((emits_gapOnContainer s _ _ _ _).next (emits_gapOnChildren s hbetween _ _)))
      rw [← haround] at hinside
      exact hinside.returns _

theorem trace_slot (f : Frame) (site : SlotSite) (key : SlotKey) (properties : List BoundProperty)
    (kids : List Sketch) :
    (Sketch.slot f site key properties kids).trace s = openingTrace s f site.view site.view ++
      ⟨(Sketch.fillingTrace s site.view kids ++ .strokes s (f.gap (kids.map Sketch.view))).ops, [],
        [⟨site, key, properties, kids.flatMap Sketch.slots⟩]⟩ := by
  apply Trace.ext <;>
    simp [Sketch.trace, Sketch.ops_slot, Sketch.strokes, Sketch.slots, openingTrace,
      Sketch.fillingTrace, Trace.strokes]

theorem selected_site (f : Frame) (kind : SlotKind) (v : Nat) (key : SlotKey)
    (children : List Element) :
    (o.site f kind v).selected key children = (o.site f kind 0).selected key children := rfl

theorem draws_slot {kind : SlotKind} (hframe : o.frame s.stage = .ok f) (hslot : f.slot = some kind)
    (hbetween : f.between = s.stage.gapBetween o.flow kind.spacing)
    (hrun : ∀ c, (occurrence s o).run c =
      (slot (o.site f kind c.tree.size) (s.key kind)
          (fill s (o.site f kind c.tree.size) (s.key kind) o.element.children) >>=
        fun _ => pure c.tree.size).run (c.add (openingTrace s f c.tree.size c.tree.size)))
    (hkids : ∀ p ∈ o.kids s f, Draws s p) : Draws s o := by
  intro c
  have hcontent := Occurrence.content_eq_none_of_slot hframe hslot
  have hsize := size_opening (s := s) f c c.tree.size
  rw [hcontent] at hsize
  have hextends : c.tree.Extends (c.add (openingTrace s f c.tree.size c.tree.size)).tree :=
    extends_opening (Nat.le_refl _)
  have hkidsEq : o.kids s f =
      (o.site f kind c.tree.size).selected (s.key kind) o.element.children := by
    rw [Occurrence.kids, hslot, selected_site f kind c.tree.size]
  rw [hkidsEq] at hkids
  have hsite : f.between = s.stage.gapBetween (o.site f kind c.tree.size).flow
      (o.site f kind c.tree.size).kind.spacing := hbetween
  have hfill := fill_run hsite hkids
    { c.add (openingTrace s f c.tree.size c.tree.size) with retained := .empty }
    (show c.tree.size < _ by rw [hsize]; simp)
  rw [Occurrence.refusal_of_frame_ok hframe, hkidsEq]
  cases hr : ((o.site f kind c.tree.size).selected (s.key kind) o.element.children).findSome?
      (Occurrence.refusal s) with
  | some e =>
    simp only [hr] at hfill
    obtain ⟨c', done, hrun', hgrows, -⟩ := hfill
    refine ⟨_, (hrun c).trans (run_bind_of_error (run_slot_of_error _ _ hrun')), ?_⟩
    exact hextends.grow (Nat.le_refl _) hgrows
  | none =>
    simp only [hr] at hfill
    obtain ⟨kids, hdrawn, hcurrent, hnumbered, hemits⟩ := hfill
    have hscope : (Sketch.fillingTrace s (o.site f kind c.tree.size).view kids ++
        .strokes s (f.gap (kids.map Sketch.view))).properties =
        (Sketch.scope f kids).filterMap (Stroke.bound? s) := by
      simp [Sketch.fillingTrace, Trace.strokes, Sketch.scope]
    have hslots : (Sketch.fillingTrace s (o.site f kind c.tree.size).view kids ++
        .strokes s (f.gap (kids.map Sketch.view))).slots = kids.flatMap Sketch.slots :=
      append_nil _
    refine ⟨.slot f (o.site f kind c.tree.size) (s.key kind)
      ((Sketch.scope f kids).filterMap (Stroke.bound? s)) kids, ?_, ?_, ?_, ?_⟩
    · exact .slot hframe hslot (Stroke.map_stroke_bound s _) hdrawn
    · rw [Sketch.Current]
      exact ⟨rfl, fun b hb => Stroke.last_of_mem_bound hb, hcurrent⟩
    · rw [Sketch.labels]
      exact Sketch.numbered_cons.mpr ⟨rfl, hsize ▸ hnumbered⟩
    · have hemitsSlot := emits_slot (o.site f kind c.tree.size) (s.key kind) hemits
      rw [hscope, hslots] at hemitsSlot
      rw [trace_slot, Emits, hrun, Canvas.add_append]
      exact hemitsSlot.returns c.tree.size

theorem flow_of_conditional (h : o.element.kind = .conditional) : o.flow = o.around := by
  simp [Occurrence.flow, Element.flow, h]

theorem draws_loop (hm : Modifier.build s.stage.env o.element = .ok mods)
    (hk : o.element.kind = .forEach) (hkids : ∀ f, ∀ p ∈ o.kids s f, Draws s p) : Draws s o := by
  have hown : o.own s.stage mods (o.spacing mods) =
      .ok (s.stage.gapAround o.flow (o.spacing mods)).toList := by
    simp [Occurrence.own, hk]
  have hslot : o.slotKind s.stage (o.spacing mods) = .ok (some (.forEach
      (items? o.item o.element) o.element.limit? (o.spacing mods))) := by
    simp [Occurrence.slotKind, hk]
  refine draws_slot (Occurrence.frame_of_ok hm hown hslot) rfl ?_ ?_ (hkids _)
  · simp [Occurrence.composed, hk, SlotKind.spacing]
  · intro c
    have hinner : innerView s o c.tree.size = c.tree.size := by
      simp [innerView, hk, Stage.content]
    rw [occurrence_run hm (some (.forEach (items? o.item o.element) o.element.limit?
      (o.spacing mods))), hinner, openingTrace_own (s.stage.gapAround o.flow (o.spacing mods)).toList,
      Canvas.add_append]
    unfold interior
    rw [hk]
    simp only [bind_assoc]
    rw [(emits_gapOnContainer s _ _ _ _).run_bind]
    simp only [Occurrence.site, Occurrence.composed, Occurrence.handed, hk]
    rfl

theorem draws_conditional (hm : Modifier.build s.stage.env o.element = .ok mods)
    (hk : o.element.kind = .conditional) (hkids : ∀ f, ∀ p ∈ o.kids s f, Draws s p) :
    Draws s o := by
  have hown : o.own s.stage mods (o.spacing mods) = .ok [] := by simp [Occurrence.own, hk]
  have hslot : o.slotKind s.stage (o.spacing mods) = (o.formula s.stage .condition .bool).map
      fun condition => some (.conditional (condition.getD ⟨o.item, .literal (.bool false)⟩)) := by
    simp only [Occurrence.slotKind, hk]
    cases o.formula s.stage .condition .bool <;> rfl
  have hinner : ∀ n, innerView s o n = n := by
    intro n
    simp [innerView, hk, Stage.content]
  cases hf : o.formula s.stage .condition .bool with
  | error e =>
    rw [hf] at hslot
    intro c
    rw [Occurrence.refusal_of_frame_error (Occurrence.frame_of_slotKind_error hm hown hslot)]
    refine ⟨c.add (openingTrace s (o.composed s.stage mods (o.spacing mods) [] none) c.tree.size
      c.tree.size), ?_, extends_opening (Nat.le_refl _)⟩
    rw [occurrence_run hm none, hinner]
    unfold interior
    rw [hk]
    exact run_bind_of_error (run_bind_of_error (run_formula?_of_error s hf _))
  | ok condition =>
    rw [hf] at hslot
    refine draws_slot (Occurrence.frame_of_ok hm hown hslot) rfl ?_ ?_ (hkids _)
    · simp [Occurrence.composed, hk, Kind.stacks, SlotKind.spacing, Stage.gapBetween_none]
    · intro c
      rw [occurrence_run hm (some (.conditional (condition.getD ⟨o.item, .literal (.bool false)⟩))),
        hinner]
      unfold interior
      rw [hk]
      simp only [bind_assoc]
      rw [(emits_formula? s hf _).run_bind, Canvas.add_empty]
      simp only [Occurrence.site, Occurrence.composed, Occurrence.handed, hk, flow_of_conditional hk]
      rfl

/-- Building an element lays out a sketch drawn for it, or is refused with its error. -/
theorem draws (s : Scene) (o : Occurrence) : Draws s o := by
  have hkids : ∀ f, ∀ p ∈ o.kids s f, Draws s p := fun f p hp => draws s p
  cases hm : Modifier.build s.stage.env o.element with
  | error e =>
    intro c
    have hframe : o.frame s.stage = .error e := by
      simp [Occurrence.frame, hm, bind, Except.bind]
    rw [Occurrence.refusal_of_frame_error hframe]
    refine ⟨c, ?_, c.tree.extends_refl⟩
    rw [occurrence_eq]
    exact run_bind_of_error (run_check_of_error hm c)
  | ok mods =>
    cases hk : o.element.kind with
    | label =>
      refine draws_leaf hm (by simp [hk]) fun v inner aligned => ?_
      simpa only [interior, hk] using marks_label s hk mods _ v
    | image =>
      refine draws_leaf hm (by simp [hk]) fun v inner aligned => ?_
      simpa only [interior, hk] using marks_image s hk mods _ v
    | spacer =>
      refine draws_leaf hm (by simp [hk]) fun v inner aligned => ?_
      simpa only [interior, hk] using marks_spacer s hk mods _ v
    | divider =>
      refine draws_leaf hm (by simp [hk]) fun v inner aligned => ?_
      simpa only [interior, hk] using marks_divider s hk mods _ v
    | forEach => exact draws_loop hm hk hkids
    | conditional => exact draws_conditional hm hk hkids
    | _ => exact draws_stack hm (by rw [hk]; rfl) hkids
termination_by sizeOf o.element
decreasing_by exact Occurrence.sizeOf_lt_of_mem_kids hp

end Draws

end Build

end Widgetry
