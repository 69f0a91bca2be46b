import Widgetry.Proofs.Source.Acceptance
import Widgetry.Proofs.Style.Completeness
import Widgetry.Proofs.View.Failure

/-!
# Accepted layouts

A renderer that accepts the root element of a layout renders it and follows every sequence of
contexts. A layout that one platform accepts is accepted by all of them.
-/

namespace Widgetry

open List

namespace Occurrence

variable {g : Stage} {o p : Occurrence} {f : Frame} {kind : SlotKind}

theorem succeeds_frame (hstyle : Succeeds (Modifier.build g.env o.element))
    (h : g.env.Reads o.element o.element.kind.contents) : Succeeds (o.frame g) := by
  rw [← succeeds_outcome_iff, outcome_frame]
  refine (succeeds_bind_iff fun _ => g.env.succeeds_reading_iff).mpr ?_
  exact ⟨succeeds_outcome_iff.mpr hstyle, h, succeeds_ok ()⟩

theorem slot_cases (h : o.frame g = .ok f) (hslot : f.slot = some kind) :
    (o.element.kind = .forEach ∧ ∃ items limit spacing, kind = .forEach items limit spacing) ∨
      (o.element.kind = .conditional ∧ ∃ condition, kind = .conditional condition) := by
  obtain ⟨mods, own, slot, -, -, hs, rfl⟩ := frame_eq_ok h
  obtain rfl : slot = some kind := hslot
  unfold slotKind at hs
  split at hs
  · rename_i hkind
    cases hs
    exact .inl ⟨hkind, _, _, _, rfl⟩
  · rename_i hkind
    obtain ⟨condition, -, hs⟩ := exists_of_bind_eq_ok hs
    cases hs
    exact .inr ⟨hkind, _, rfl⟩
  · cases hs

theorem shown_of_mem_members (h : p ∈ o.members f) : p.element ∈ o.element.shown := by
  have hchild := element_mem_of_mem_members h
  unfold members at h
  unfold Element.shown
  cases hkind : o.element.kind with
  | column | row | stack | scrollView => exact hchild
  | _ => simp [hkind, Kind.stacks] at h

theorem shown_of_mem_selected (hframe : o.frame g = .ok f) (hslot : f.slot = some kind) {v : Nat}
    {key : SlotKey} (h : p ∈ (o.site f kind v).selected key o.element.children) :
    p.element ∈ o.element.shown := by
  unfold SlotSite.selected at h
  split at h
  · rename_i hkind hchildren
    obtain ⟨i, -, rfl⟩ := mem_map.mp h
    rcases slot_cases hframe hslot with ⟨hx, -⟩ | ⟨-, condition, rfl⟩
    · simp [Element.shown, hx, hchildren]
    · cases hkind
  · rename_i hkind hchildren
    rw [mem_singleton.mp h]
    rcases slot_cases hframe hslot with ⟨-, items, limit, spacing, rfl⟩ | ⟨hx, -⟩
    · cases hkind
    · simp [Element.shown, hx, hchildren]
  · rename_i hkind hchildren
    rw [mem_singleton.mp h]
    rcases slot_cases hframe hslot with ⟨-, items, limit, spacing, rfl⟩ | ⟨hx, -⟩
    · cases hkind
    · simp [Element.shown, hx, hchildren]
  · cases h

variable {s : Scene}

theorem shown_of_mem_kids (hframe : o.frame s.stage = .ok f) (h : p ∈ o.kids s f) :
    p.element ∈ o.element.shown := by
  unfold kids at h
  split at h
  · exact shown_of_mem_members h
  · rename_i hslot
    exact shown_of_mem_selected hframe hslot h

/-- An element that is accepted is refused in no scene. -/
theorem refusal_eq_none (h : s.stage.env.Accepts o.element) : o.refusal s = none := by
  generalize hx : o.element = x at h
  induction h generalizing o with
  | intro style contents _ ih =>
    subst hx
    obtain ⟨f, hframe⟩ := succeeds_frame style contents
    rw [refusal_of_frame_ok hframe, List.findSome?_eq_none_iff]
    intro p hp
    exact ih p.element (shown_of_mem_kids hframe hp) rfl

end Occurrence

namespace Sketch

variable {s : Scene} {changed : List DataPath} {root : Element}

/-- The slots of an element that is accepted are refused no update. -/
theorem refusals_eq_none {k : Sketch} {o : Occurrence} (hk : k.Drawn s.stage o)
    (ho : o.Stands root) (h : s.stage.env.Accepts o.element) :
    Slot.refusals s changed root k.slots = none := by
  have hnone (os : List Occurrence) : os.findSome? (fun _ => (none : Option Error)) = none :=
    findSome?_eq_none_iff.mpr fun _ _ => rfl
  induction k using inductionOn generalizing o with
  | plain v inner f kids ih =>
    cases hk with
    | plain hframe hslot hinner hkids =>
      obtain ⟨-, -, hshown⟩ := h
      rw [slots, ← hnone (o.members f)]
      exact refusals_flatMap_slots hkids fun k hk p hp hd => ih k hk hd
        (Occurrence.stands_members ho hp) (hshown _ (Occurrence.shown_of_mem_members hp))
  | slot f site key properties kids ih =>
    cases hk with
    | @slot _ v _ kind _ _ _ hframe hslot hproperties hkids =>
      obtain ⟨-, -, hshown⟩ := h
      rw [slots, Slot.refusals, Slot.refusals, Option.or_none, Slot.refusal]
      -- a slot that keeps its children passes the update on, any other draws new ones
      split
      · rw [← hnone ((o.site f kind v).selected key o.element.children)]
        exact refusals_flatMap_slots hkids fun k hk p hp hd => ih k hk hd
          (Occurrence.stands_selected ho hp)
          (hshown _ (Occurrence.shown_of_mem_selected hframe hslot hp))
      · rw [show (o.site f kind v).element = o.path from rfl,
          show root.descendant? o.path = _ from ho]
        apply List.findSome?_eq_none_iff.mpr
        intro p hp
        exact Occurrence.refusal_eq_none
          (hshown _ (Occurrence.shown_of_mem_selected hframe hslot hp))

end Sketch

namespace Renderer

variable {r : Renderer} {l : Layout} {size : Size}

theorem succeeds_render (h : Env.Accepts ⟨r.style, r.target.platform, size⟩ l.root) (c : Context) :
    Succeeds (r.render l size c) := by
  obtain ⟨tree, retained, k, log, hrender, -⟩ :=
    exists_render (Occurrence.refusal_eq_none (o := l.occurrence) (s := r.scene size c) h)
  exact ⟨_, hrender⟩

variable {cs : List Context}

theorem Runs.succeeds_update {R : Rendering} (hrun : r.Runs l size cs R)
    (h : Env.Accepts ⟨r.style, r.target.platform, size⟩ l.root) (c : Context) :
    Succeeds (r.update R c).result := by
  obtain ⟨k, hk⟩ := hrun.traces
  have hdrawn := hk.depicts.drawn
  rw [hk.size_eq, hk.layout_eq] at hdrawn
  have hrefusals : Slot.refusals (r.scene R.size c) (R.context.diff c) R.layout.root k.slots =
      none := by
    rw [hk.size_eq, hk.layout_eq]
    exact Sketch.refusals_eq_none hdrawn l.stands_occurrence h
  exact (hk.depicts.update hrefusals).1

/-- A layout whose root is accepted is rendered, and follows every sequence of contexts. -/
theorem exists_run (h : Env.Accepts ⟨r.style, r.target.platform, size⟩ l.root) (hcs : cs ≠ []) :
    ∃ R, r.run? l size cs = some R := by
  induction cs with
  | nil => exact absurd rfl hcs
  | cons c cs ih =>
    cases cs with
    | nil =>
      obtain ⟨⟨R, log⟩, hR⟩ := succeeds_render h c
      refine ⟨R, ?_⟩
      rw [run?, hR]
      rfl
    | cons d cs =>
      obtain ⟨R, hR⟩ := ih (by simp)
      obtain ⟨stats, hstats⟩ := (runs_of_run? hR).succeeds_update h c
      refine ⟨(r.update R c).rendering, ?_⟩
      rw [run?, hR, Option.bind_some, hstats]
      · rfl
      · nofun

end Renderer

namespace Layout

/-- A layout that is read in a style without gaps, with the same tokens for all platforms, has a
source for either generated platform or for none. If it has, both interpreted platforms render it at
every size and follow every sequence of contexts. -/
theorem accepted_by_all {style : Style}
    (hstyle : style = .builtin ∨ ∃ text, Style.parse text = .ok style)
    (htokens : ∀ p q token, (style.palette p).contains token = (style.palette q).contains token)
    {document : Json} {l : Layout} (hread : read document = .ok l) (package : String) :
    (Succeeds (Source.File.generate style package .glance l) ↔
      Succeeds (Source.File.generate style package .swiftUI l)) ∧
    (Succeeds (Source.File.generate style package .glance l) →
      ∀ (target : ViewTarget) (size : Size) (cs : List Context), cs ≠ [] →
        ∃ R, Renderer.run? ⟨target, style⟩ l size cs = some R) := by
  have hcomplete : style.Complete := by
    rcases hstyle with rfl | ⟨text, htext⟩
    · exact Style.complete_builtin
    · exact Style.complete_of_parse htext
  have halike := hcomplete.alike htokens
  rw [Source.File.succeeds_generate_iff, Source.File.succeeds_generate_iff]
  refine ⟨?_, ?_⟩
  · constructor
    · intro h s hs
      exact (halike ..).accepts (h s hs)
    · intro h s hs
      exact (halike ..).accepts (h s hs)
  · intro h target size cs hcs
    -- acceptance does not depend on the size, and there is a declared one
    obtain ⟨s, hs⟩ := exists_mem_of_ne_nil _ (sizes_ne_nil_of_read hread)
    exact Renderer.exists_run ((halike ..).accepts (h s hs)) hcs

/-- Rows under a heading in a theme color, and a note where there are none. -/
theorem accepted_by_all_rows :
    ∃ document l, read document = .ok l ∧
      Succeeds (Source.File.generate .builtin "widgets" .glance l) ∧
      Succeeds (Source.File.generate .builtin "widgets" .swiftUI l) ∧
      ∀ (target : ViewTarget) (size : Size) (cs : List Context), cs ≠ [] →
        ∃ R, Renderer.run? ⟨target, .builtin⟩ l size cs = some R := by
  let document : Json := .object
    [("layout", .object
       [("children", .array
         [.object [("color", .string "@primary"), ("text", .string "Rows"),
            ("type", .string "label")],
          .object
           [("itemTemplate", .object [("text", .string "item.title"), ("type", .string "label")]),
            ("items", .string "data.rows"), ("type", .string "forEach")],
          .object
           [("condition", .array [.string "!", .array [.string "has", .string "data.rows"]]),
            ("then", .object [("text", .string "none"), ("type", .string "label")]),
            ("type", .string "conditional")]]),
        ("spacing", .number (.integer 4)), ("type", .string "column")]),
     ("name", .string "Rows"),
     ("supportedSizes", .array [.object [("height", .number (.integer 40)),
       ("id", .string "small"), ("width", .number (.integer 80))]])]
  have hsource : ((read document).toOption.map fun l =>
      (Source.File.generate .builtin "widgets" .glance l).isOk) = some true := by decide +kernel
  have htokens : ∀ p q token,
      (Style.builtin.palette p).contains token = (Style.builtin.palette q).contains token := by
    intro p q token
    cases p <;> cases q <;> rfl
  obtain ⟨l, hread, hok⟩ := exists_of_toOption_map hsource
  have hglance := succeeds_iff_isOk.mpr hok
  obtain ⟨hiff, hrun⟩ := accepted_by_all (.inl rfl) htokens hread "widgets"
  exact ⟨document, l, hread, hglance, hiff.mp hglance, hrun hglance⟩

end Layout

end Widgetry
