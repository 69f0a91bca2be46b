import Widgetry.Proofs.Source.Coverage
import Widgetry.Proofs.Source.SwiftSheet

/-!
# Swift sheets hold all lookups
-/

namespace Widgetry.Source.Swift

open List

variable {env : Env} {depth : Nat} {e : Element} {p : Property} {s : String} {flow : Flow}
  {mods : List (Modifier Code)} {c : Code} {view : View}

/-! ### Lines and blocks -/

theorem shows_modifierLines {ls : List String} (h : Among s ls) : Shows s (modifierLines ls) := by
  obtain ⟨l, hl, hs⟩ := h
  unfold modifierLines
  split
  · rename_i hempty
    rw [isEmpty_iff.mp hempty] at hl
    cases hl
  · have hlines : Shows s (ls.map .line) := shows_of_mem (mem_map_of_mem hl) rfl hs
    exact (hlines.right _).left _

theorem shows_guard {condition : String} (h : Within s condition) (sheet : Sheet) :
    Shows s (guarded (some condition) sheet).directives := by
  have hopen : Shows s [.enter ("if " ++ condition ++ " \x7b")] :=
    shows_of_mem mem_cons_self rfl (h.between _ _)
  exact (hopen.left _).left _

variable {sheet : Sheet} {kind : Kind}

theorem shows_guarded (h : Shows s sheet.directives) (visible : Option String) :
    Shows s (guarded visible sheet).directives := by
  cases visible with
  | none => exact h
  | some v => exact (h.right _).left _

theorem infix_guarded (visible : Option String) (sheet : Sheet) :
    sheet.directives <:+: (guarded visible sheet).directives := by
  cases visible with
  | none => exact infix_rfl
  | some v => exact infix_append _ _ _

theorem within_stackOpening {t : String} (hkind : kind ≠ .stack)
    (hspacing : computedText? mods .spacing = some t) (hs : Within s t) (style : Style) :
    Within s (stackOpening style kind mods).1 := by
  unfold stackOpening
  rw [hspacing]
  cases kind with
  | stack => exact absurd rfl hkind
  | row => exact hs.between _ _
  | _ => exact hs.between _ _

theorem along_ne_stack (horizontal : Bool) : along horizontal ≠ .stack := by
  cases horizontal <;> decide

theorem exists_layoutLine? (hcommon : p.isCommon = true) (hcarries : p.carries = true)
    (hne : p ≠ .visible) (hs : Within s c.text) :
    ∃ l, layoutLine? ⟨p, .computed c⟩ = some l ∧ Within s l := by
  cases p with
  | width | height | cornerRadius | padding | paddingHorizontal | paddingVertical
  | backgroundColor => exact ⟨_, rfl, hs.between _ _⟩
  | visible => exact absurd rfl hne
  | fillWidth | fillHeight => cases hcarries
  | _ => cases hcommon

/-! ### Views -/

/-- A view that holds the lookups of the properties that only its kind of element has. -/
def View.Holds (depth : Nat) (e : Element) (view : View) : Prop :=
  ∀ p s, Due .swiftUI depth e p s → p ∈ e.kind.own.filter Property.carries →
    Shows s view.sheet.directives ∨ Among s view.lines

section

variable (hformed : e.WellFormed)
  (hmods : modifierCodes language env (itemVariable depth) e = .ok mods)

include hformed hmods

/-- Common properties of a view stand in its layout modifiers and in the guard around it. -/
theorem held_view (hkind : e.kind ≠ .conditional) (hview : view.Holds depth e) (more : List String) :
    Held .swiftUI depth e
      (guarded (computedText? mods .visible) (dressed mods more view)).directives := by
  intro p s hdue _
  by_cases hvisible : p = .visible
  · subst hvisible
    obtain ⟨c, hget, hs⟩ := hdue.computed hformed (by decide) hmods
    rw [computedText?_of_get? hget]
    exact shows_guard hs _
  refine shows_guarded ?_ _
  rcases hdue.isCommon_or_mem_own hformed hkind with hcommon | hown
  · obtain ⟨c, hget, hs⟩ := hdue.computed hformed (Modifier.mem_order_of_isCommon hcommon) hmods
    obtain ⟨l, hl, hs⟩ := exists_layoutLine? hcommon (hdue.allowed hformed).2 hvisible hs
    have hline : l ∈ mods.filterMap layoutLine? :=
      mem_filterMap.mpr ⟨_, Modifier.mem_of_get? hget, hl⟩
    exact (shows_modifierLines (((hs.among hline).right _).left _)).right _
  · rcases hview p s hdue hown with hshows | hamong
    · exact hshows.left _
    · exact (shows_modifierLines ((hamong.left _).left _)).right _

theorem among_textLines (hdue : Due .swiftUI depth e p s)
    (hp : p ∈ [.color, .fontSize, .fontWeight, .maxLines]) : Among s (textLines mods) := by
  simp only [mem_cons, not_mem_nil, or_false] at hp
  rcases hp with rfl | rfl | rfl | rfl
  · obtain ⟨c, hget, hs⟩ := hdue.computed hformed (by decide) hmods
    refine Among.left (Among.left (Among.right (among_toList (computedText?_of_get? hget) ?_) _) _) _
    exact hs.between _ _
  · obtain ⟨c, hget, hs⟩ := hdue.computed hformed (by decide) hmods
    refine Among.left (Among.left (Among.left ?_ _) _) _
    rw [computedText?_of_get? hget]
    cases weightText? mods with
    | none => exact (hs.between _ _).among mem_cons_self
    | some w => exact (((hs.between _ _).before _).before _).among mem_cons_self
  · obtain ⟨c, hget, hs⟩ := hdue.computed hformed (by decide) hmods
    refine Among.left (Among.left (Among.left ?_ _) _) _
    have hweight : weightText? mods = some (call "fontWeight" [c.text]) := by
      rw [weightText?, hget]
    have hcall : Within s (call "fontWeight" [c.text]) := hs.trans (within_call _ mem_cons_self)
    rw [hweight]
    cases computedText? mods .fontSize with
    | none => exact (hcall.between _ _).among mem_cons_self
    | some t => exact (hcall.between _ _).among mem_cons_self
  · obtain ⟨c, hget, hs⟩ := hdue.computed hformed (by decide) hmods
    refine Among.left (Among.right (among_toList (computedText?_of_get? hget) ?_) _) _
    exact hs.between _ _

theorem holds_label (hkind : e.kind = .label)
    (h : label env (itemVariable depth) mods e = .ok view) : view.Holds depth e := by
  obtain ⟨text, htext, h⟩ := exists_of_bind_eq_ok h
  rw [← Except.ok.inj h]
  intro p s hdue hown
  rw [hkind] at hown
  have hown : p ∈ [.text, .color, .fontSize, .fontWeight, .maxLines] := hown
  rcases mem_cons.mp hown with rfl | hstyle
  · obtain ⟨code, rfl, hs⟩ := hdue.code htext
    exact .inl (shows_of_mem mem_cons_self rfl (hs.between _ _))
  · exact .inr (among_textLines hformed hmods hdue hstyle)

theorem holds_image (hkind : e.kind = .image)
    (h : image env (itemVariable depth) mods e = .ok view) : view.Holds depth e := by
  obtain ⟨src, hsrc, h⟩ := exists_of_bind_eq_ok h
  obtain ⟨size, hsize, h⟩ := exists_of_bind_eq_ok h
  rw [← Except.ok.inj h]
  intro p s hdue hown
  rw [hkind] at hown
  have hown : p ∈ [.src, .size, .color] := hown
  simp only [mem_cons, not_mem_nil, or_false] at hown
  rcases hown with rfl | rfl | rfl
  · obtain ⟨code, rfl, hs⟩ := hdue.code hsrc
    exact .inl (shows_of_mem mem_cons_self rfl (hs.between _ _))
  · obtain ⟨code, rfl, hs⟩ := hdue.code hsize
    refine .inr (Among.left (Among.right (Within.among ?_ mem_cons_self) _) _)
    exact hs.between _ _
  · obtain ⟨c, hget, hs⟩ := hdue.computed hformed (by decide) hmods
    refine .inr (Among.right (among_toList (computedText?_of_get? hget) ?_) _)
    exact hs.between _ _

theorem holds_divider (hkind : e.kind = .divider)
    (h : divider env (itemVariable depth) flow mods e = .ok view) : view.Holds depth e := by
  obtain ⟨thickness, hthickness, h⟩ := exists_of_bind_eq_ok h
  rw [← Except.ok.inj h]
  intro p s hdue hown
  rw [hkind] at hown
  have hown : p ∈ [.color, .thickness] := hown
  simp only [mem_cons, not_mem_nil, or_false] at hown
  rcases hown with rfl | rfl
  · obtain ⟨c, hget, hs⟩ := hdue.computed hformed (by decide) hmods
    refine .inr (Within.among ?_ mem_cons_self)
    rw [Modifier.computed?, hget]
    exact hs.between _ _
  · obtain ⟨code, rfl, hs⟩ := hdue.code hthickness
    refine .inr (Within.among ?_ (mem_cons_of_mem _ mem_cons_self))
    cases flow with
    | horizontal => exact hs.between _ _
    | vertical | overlay => exact hs.between _ _

/-- The opening of a stack holds the spacing of the element. -/
theorem within_opening_of_due (hkind : kind ≠ .stack) (hdue : Due .swiftUI depth e .spacing s)
    (style : Style) : Within s (stackOpening style kind mods).1 := by
  obtain ⟨c, hget, hs⟩ := hdue.computed hformed (by decide) hmods
  exact within_stackOpening hkind (computedText?_of_get? hget) hs style

theorem holds_stack (hkind : e.kind ∈ [.column, .row, .stack]) (style : Style) (body : Sheet)
    (after : List Directive) : View.Holds depth e
      ⟨Sheet.plain [.enter (stackOpening style e.kind mods).1] ++ body ++ .plain after, []⟩ := by
  intro p s hdue hown
  -- a stack has no spacing, the other two kinds have nothing else
  have hspacing : p = .spacing ∧ e.kind ≠ .stack := by
    simp only [mem_cons, not_mem_nil, or_false] at hkind
    rcases hkind with hkind | hkind | hkind
    · rw [hkind] at hown ⊢
      exact ⟨mem_singleton.mp hown, nofun⟩
    · rw [hkind] at hown ⊢
      exact ⟨mem_singleton.mp hown, nofun⟩
    · rw [hkind] at hown
      cases hown
  obtain ⟨rfl, hne⟩ := hspacing
  have hopening := within_opening_of_due hformed hmods hne hdue style
  exact .inl (((shows_of_mem mem_cons_self rfl hopening).left _).left _)

theorem holds_loop (hkind : e.kind = .forEach) (style : Style) (k : Nat) (template : Sheet) :
    View.Holds depth e ⟨loop style (itemVariable depth) k mods e template, []⟩ := by
  intro p s hdue hown
  rw [hkind] at hown
  have hown : p ∈ [.items, .spacing] := hown
  simp only [mem_cons, not_mem_nil, or_false] at hown
  refine .inl (Shows.left (Shows.left ?_ _) _)
  rcases hown with rfl | rfl
  · refine shows_of_mem (mem_cons_of_mem _ mem_cons_self) rfl ?_
    rw [← hdue.items hformed]
    have hsource : Within _
        ("ForEach(Array(items(" ++ (itemsCode language (itemVariable depth) e).text ++ ")") :=
      (Within.refl _).between _ _
    exact (((((hsource.before _).before _).before _).before _).before _).before _
  · exact shows_of_mem mem_cons_self rfl
      (within_opening_of_due hformed hmods (along_ne_stack _) hdue style)

theorem held_conditional (hkind : e.kind = .conditional) {condition : Option Code}
    (hcondition : propertyCode language env (itemVariable depth) e .condition .bool = .ok condition)
    (branches : Sheet) :
    Held .swiftUI depth e (guarded (computedText? mods .visible) (Sheet.calling (usesOf condition) ++
      guarded (some ((condition.map Code.text).getD "false")) branches)).directives := by
  intro p s hdue _
  rcases hdue.of_conditional hformed hkind with rfl | rfl
  · obtain ⟨code, rfl, hs⟩ := hdue.code hcondition
    have hbranches : Shows s (Sheet.calling (usesOf (some code)) ++
        guarded (some code.text) branches).directives := (shows_guard hs branches).right []
    exact shows_guarded hbranches _
  · obtain ⟨c, hget, hs⟩ := hdue.computed hformed (by decide) hmods
    rw [computedText?_of_get? hget]
    exact shows_guard hs _

end

theorem holds_spacer (hkind : e.kind = .spacer)
    (h : spacer env (itemVariable depth) flow e = .ok view) : view.Holds depth e := by
  obtain ⟨size, hsize, h⟩ := exists_of_bind_eq_ok h
  intro p s hdue hown
  rw [hkind] at hown
  obtain rfl := mem_singleton.mp hown
  obtain ⟨code, rfl, hs⟩ := hdue.code hsize
  rw [← Except.ok.inj h]
  refine .inr (Within.among ?_ mem_cons_self)
  cases flow with
  | vertical | horizontal | overlay => exact hs.between _ _

theorem holds_scrollView (hkind : e.kind = .scrollView) (view : View) : view.Holds depth e := by
  intro p s _ hown
  rw [hkind] at hown
  cases hown

/-! ### Elements -/

theorem holds_dialect : dialect.Holds .swiftUI := by
  intro env depth flow more e mods s hformed hmods hs
  have hcount := hformed.children
  have hview {view : View} (hkind : e.kind ≠ .conditional) (h : view.Holds depth e) :=
    held_view hformed hmods hkind h more
  rw [setting_dialect, setting, Emission.headD_stackOf] at hs
  obtain ⟨kind, id, properties, children, place⟩ := e
  have hleaf {r : Except Error View} (hs : (r >>= fun view => pure (.leaf (guarded
        (computedText? mods .visible) (dressed mods more view)))) = .ok s)
      (hnone : (children.length == 0) = true) (hkind : kind ≠ .conditional) (hown : ∀ view,
        r = .ok view → view.Holds depth ⟨kind, id, properties, children, place⟩) :
      s.Holds .swiftUI depth ⟨kind, id, properties, children, place⟩ := by
    obtain ⟨view, hr, hs⟩ := exists_of_bind_eq_ok hs
    rw [← Except.ok.inj hs]
    exact ⟨absurd (length_eq_zero_iff.mp (beq_iff_eq.mp hnone)), fun _ _ =>
      hview hkind (hown view hr)⟩
  have hkeeps (before after : List Directive) (uses : List Helper) (body : Sheet) :
      body.directives <:+: (guarded (computedText? mods .visible) (dressed mods more
        ⟨Sheet.mk before uses ++ body ++ .plain after, []⟩)).directives := by
    refine IsInfix.trans ?_ (infix_guarded _ _)
    exact (infix_append _ _ _).trans (prefix_append _ _).isInfix
  cases kind with
  | column | row | stack =>
    obtain rfl := Except.ok.inj hs
    exact ⟨fun _ => hkeeps _ _ _, fun body _ =>
      hview (by simp) (holds_stack hformed hmods (by simp) env.style body [.leave "\x7d"])⟩
  | scrollView =>
    obtain rfl := Except.ok.inj hs
    exact ⟨fun _ => hkeeps _ _ _, fun body _ => hview (by simp) (holds_scrollView rfl _)⟩
  | label => exact hleaf hs hcount (by simp) fun _ => holds_label hformed hmods rfl
  | image => exact hleaf hs hcount (by simp) fun _ => holds_image hformed hmods rfl
  | spacer => exact hleaf hs hcount (by simp) fun _ => holds_spacer rfl
  | divider => exact hleaf hs hcount (by simp) fun _ => holds_divider hformed hmods rfl
  | forEach =>
    obtain rfl := Except.ok.inj hs
    exact ⟨fun _ => hkeeps _ _ _, fun body _ => hview (by simp) (holds_loop hformed hmods rfl _ _ _)⟩
  | conditional =>
    obtain ⟨condition, hcondition, hs⟩ := exists_of_bind_eq_ok hs
    obtain rfl := Except.ok.inj hs
    refine ⟨fun _ body => ?_, fun body _ => held_conditional hformed hmods rfl hcondition _⟩
    refine IsInfix.trans ?_ (infix_guarded _ _)
    exact infix_guarded (some _) body

end Widgetry.Source.Swift
