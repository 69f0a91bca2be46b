import Widgetry.Proofs.Source.Coverage
import Widgetry.Proofs.Source.KotlinSheet

/-!
# Kotlin sheets hold all lookups
-/

namespace Widgetry.Source.Kotlin

open List

variable {env : Env} {depth : Nat} {e : Element} {p : Property} {s : String} {flow : Flow}
  {base : String} {mods : List (Modifier Code)} {c : Code}

/-! ### Calls -/

variable {args : List String} {modifier : String} {sheet : Sheet}

theorem shows_arguments (h : Among s args) : Shows s (args.map fun a => .line (a ++ ",")) := by
  obtain ⟨a, ha, hs⟩ := h
  exact shows_of_mem (mem_map_of_mem ha) rfl (hs.before ",")

theorem shows_callLines (h : Among s args) (name : String) : Shows s (callLines name args) := by
  unfold callLines
  dsimp only
  split
  · exact shows_of_mem mem_cons_self rfl (h.call name)
  · exact ((shows_arguments h).right _).left _

theorem shows_blockLines (h : Among s args) (name : String) : Shows s (blockLines name args) := by
  unfold blockLines
  dsimp only
  split
  · rename_i hempty
    obtain ⟨a, ha, -⟩ := h
    rw [isEmpty_iff.mp hempty] at ha
    cases ha
  · split
    · exact shows_of_mem mem_cons_self rfl ((h.call name).before _)
    · exact ((shows_arguments h).right _).left _

/-! ### Modifiers -/

theorem within_dp {t : String} (hs : Within s t) : Within s (dp t) := hs.group.before _

theorem within_modifierCall (hcommon : p.isCommon = true) (hcarries : p.carries = true)
    (hs : Within s c.text) : Within s (modifierCall ⟨p, .computed c⟩) := by
  cases p with
  | width | height | cornerRadius | padding | paddingHorizontal | paddingVertical =>
    exact (within_dp hs).between _ _
  | backgroundColor | visible => exact hs.between _ _
  | fillWidth | fillHeight => cases hcarries
  | _ => cases hcommon

/-- A text with a parenthesis makes a modifier that is worth an argument. -/
theorem among_modifierArg (hparen : '(' ∈ s.toList) (hs : Within s modifier) :
    Among s (modifierArg modifier) := by
  unfold modifierArg
  split
  · rename_i heq
    rw [heq] at hs
    exact absurd (hs.subset hparen) (by decide)
  · exact (hs.after _).among mem_cons_self

theorem among_containerArgs (hparen : '(' ∈ s.toList) (hs : Within s modifier) (style : Style)
    (name : String) (mods : List (Modifier Code)) :
    Among s (containerArgs style name modifier mods) := by
  have hmodifier := among_modifierArg hparen hs
  unfold containerArgs
  dsimp only
  split
  · split
    · exact hmodifier.left _
    · exact hmodifier
  · exact (hmodifier.left _).left _

section

variable (hformed : e.WellFormed)
  (hmods : modifierCodes language env (itemVariable depth) e = .ok mods) {sheet : Sheet}

include hformed hmods

/-- What is due for a common property stands in the modifier. -/
theorem within_modifierText (hdue : Due .glance depth e p s) (hcommon : p.isCommon = true)
    (base : String) (more : List String) : Within s (modifierText base mods more) := by
  obtain ⟨c, hget, hs⟩ := hdue.computed hformed (Modifier.mem_order_of_isCommon hcommon) hmods
  have hcall : modifierCall ⟨p, .computed c⟩ ∈ mods.map modifierCall :=
    mem_map_of_mem (Modifier.mem_of_get? hget)
  have hwithin := within_modifierCall hcommon (hdue.allowed hformed).2 hs
  exact (hwithin.trans (within_join hcall)).between _ _

/-! ### Elements without children -/

theorem held_label (hkind : e.kind = .label)
    (h : label env (itemVariable depth) base mods e = .ok sheet) :
    Held .glance depth e sheet.directives := by
  obtain ⟨text, htext, hsheet⟩ := exists_of_bind_eq_ok h
  rw [← Except.ok.inj hsheet]
  intro p s hdue _
  refine shows_callLines ?_ "Text"
  -- an argument for the style, if it holds what is due
  have hstyle : Among s (textStyle mods) → Among s (if (textStyle mods).isEmpty then []
      else ["style = " ++ call "TextStyle" (textStyle mods)]) := by
    intro hamong
    split
    · rename_i hempty
      obtain ⟨a, ha, -⟩ := hamong
      rw [isEmpty_iff.mp hempty] at ha
      cases ha
    · exact ((hamong.call _).after _).among mem_cons_self
  rcases hdue.isCommon_or_mem_own hformed (by rw [hkind]; decide) with hcommon | hown
  · have hmodifier := within_modifierText hformed hmods hdue hcommon base []
    exact ((((among_modifierArg hdue.paren hmodifier).right _).left _).left _)
  · rw [hkind] at hown
    have hown : p ∈ [.text, .color, .fontSize, .fontWeight, .maxLines] := hown
    simp only [mem_cons, not_mem_nil, or_false] at hown
    rcases hown with rfl | rfl | rfl | rfl | rfl
    · obtain ⟨code, rfl, hs⟩ := hdue.code htext
      exact ((((hs.after _).among mem_cons_self).left _).left _).left _
    · obtain ⟨c, hget, hs⟩ := hdue.computed hformed (by decide) hmods
      have hcolor := among_toList (computedText?_of_get? hget)
        (f := fun c => "color = ColorProvider(" ++ c ++ ")") (hs.between _ _)
      exact ((hstyle (((hcolor.left _).left _).left _)).right _).left _
    · obtain ⟨c, hget, hs⟩ := hdue.computed hformed (by decide) hmods
      have hsize := among_toList (computedText?_of_get? hget)
        (f := fun s => "fontSize = " ++ sp s) ((hs.group.before _).after _)
      exact ((hstyle (((hsize.right _).left _).left _)).right _).left _
    · obtain ⟨c, hget, hs⟩ := hdue.computed hformed (by decide) hmods
      have hweight : Among s (textStyle mods) := by
        unfold textStyle
        rw [hget]
        refine Among.left (Among.right (Within.among ?_ mem_cons_self) _) _
        exact (hs.trans (within_call _ mem_cons_self)).after _
      exact ((hstyle hweight).right _).left _
    · obtain ⟨c, hget, hs⟩ := hdue.computed hformed (by decide) hmods
      exact (among_toList (computedText?_of_get? hget)
        (f := fun n => "maxLines = " ++ group n ++ ".toInt()") (hs.group.between _ _)).right _

theorem held_image (hkind : e.kind = .image)
    (h : image env (itemVariable depth) base mods e = .ok sheet) :
    Held .glance depth e sheet.directives := by
  obtain ⟨src, hsrc, h⟩ := exists_of_bind_eq_ok h
  obtain ⟨size, hsize, hsheet⟩ := exists_of_bind_eq_ok h
  rw [← Except.ok.inj hsheet]
  intro p s hdue _
  refine shows_callLines ?_ "Image"
  rcases hdue.isCommon_or_mem_own hformed (by rw [hkind]; decide) with hcommon | hown
  · have hmodifier := within_modifierText hformed hmods hdue hcommon base
      (size.map fun c => ".size(" ++ dp c.text ++ ")").toList
    exact ((among_modifierArg hdue.paren hmodifier).right _).left _
  · rw [hkind] at hown
    have hown : p ∈ [.src, .size, .color] := hown
    simp only [mem_cons, not_mem_nil, or_false] at hown
    rcases hown with rfl | rfl | rfl
    · obtain ⟨code, rfl, hs⟩ := hdue.code hsrc
      exact (((hs.between _ _).among mem_cons_self).left _).left _
    · obtain ⟨code, rfl, hs⟩ := hdue.code hsize
      refine ((among_modifierArg hdue.paren (Within.after ?_ _)).right _).left _
      exact ((within_dp hs).between _ _).trans (within_join mem_cons_self)
    · obtain ⟨c, hget, hs⟩ := hdue.computed hformed (by decide) hmods
      refine Among.right (among_toList (computedText?_of_get? hget) ?_) _
      exact hs.between _ _

theorem held_spacer (hkind : e.kind = .spacer)
    (h : spacer env (itemVariable depth) flow base mods e = .ok sheet) :
    Held .glance depth e sheet.directives := by
  obtain ⟨size, hsize, hsheet⟩ := exists_of_bind_eq_ok h
  rw [← Except.ok.inj hsheet]
  intro p s hdue _
  refine shows_callLines (among_modifierArg hdue.paren ?_) "Spacer"
  rcases hdue.isCommon_or_mem_own hformed (by rw [hkind]; decide) with hcommon | hown
  · exact within_modifierText hformed hmods hdue hcommon base _
  · rw [hkind] at hown
    obtain rfl := mem_singleton.mp hown
    obtain ⟨code, rfl, hs⟩ := hdue.code hsize
    refine Within.after (Within.trans ?_ (within_join mem_cons_self)) _
    cases flow with
    | vertical | horizontal | overlay => exact (within_dp hs).between _ _

theorem held_divider (hkind : e.kind = .divider)
    (h : divider env (itemVariable depth) flow base mods e = .ok sheet) :
    Held .glance depth e sheet.directives := by
  obtain ⟨thickness, hthickness, hsheet⟩ := exists_of_bind_eq_ok h
  rw [← Except.ok.inj hsheet]
  intro p s hdue _
  refine shows_of_mem mem_cons_self rfl (Within.between ?_ _ _)
  rcases hdue.isCommon_or_mem_own hformed (by rw [hkind]; decide) with hcommon | hown
  · exact within_modifierText hformed hmods hdue hcommon base _
  · rw [hkind] at hown
    have hown : p ∈ [.color, .thickness] := hown
    simp only [mem_cons, not_mem_nil, or_false] at hown
    refine Within.after ?_ _
    rcases hown with rfl | rfl
    · obtain ⟨c, hget, hs⟩ := hdue.computed hformed (by decide) hmods
      refine Within.trans ?_ (within_join (mem_cons_of_mem _ mem_cons_self))
      rw [Modifier.computed?, hget]
      exact hs.between _ _
    · obtain ⟨code, rfl, hs⟩ := hdue.code hthickness
      refine Within.trans ?_ (within_join mem_cons_self)
      cases flow with
      | vertical | horizontal | overlay => exact (within_dp hs).between _ _

/-! ### Elements with children -/

/-- The lookups of a container stand in its modifier, or in the gaps between its children. -/
theorem held_container (hkind : e.kind.isContainer = true) (flow : Flow) (base : String)
    {opening body : List Directive}
    (hopening : ∀ s, '(' ∈ s.toList → Within s (modifierText base mods []) → Shows s opening)
    (hgaps : e.kind ≠ .scrollView → 2 ≤ e.children.length → ∀ s,
      Shows s ((computedText? mods .spacing).map (gap flow)).toList → Shows s body)
    (after : List Directive) :
    Held .glance depth e (opening ++ body ++ after) := by
  intro p s hdue hspacing
  have hne : e.kind ≠ .conditional := by
    intro heq
    rw [heq] at hkind
    cases hkind
  rcases hdue.isCommon_or_mem_own hformed hne with hcommon | hown
  · have hmodifier := within_modifierText hformed hmods hdue hcommon base []
    exact ((hopening s hdue.paren hmodifier).left _).left _
  · cases heq : e.kind with
    | column | row =>
      rw [heq] at hown hgaps
      obtain rfl := mem_singleton.mp hown
      have hmany := hspacing rfl rfl (by rw [heq]; decide)
      obtain ⟨c, hget, hs⟩ := hdue.computed hformed (by decide) hmods
      rw [computedText?_of_get? hget] at hgaps
      have hgap : Shows s [gap flow c.text] :=
        shows_of_mem mem_cons_self rfl ((within_dp hs).between _ _)
      exact ((hgaps (by decide) hmany s hgap).right _).left _
    | stack | scrollView =>
      rw [heq] at hown
      cases hown
    | _ =>
      rw [heq] at hkind
      cases hkind

theorem held_loop (hkind : e.kind = .forEach) (style : Style) (k : Nat) (template : Sheet) :
    Held .glance depth e
      (loop style (itemVariable depth) k base mods e template).directives := by
  intro p s hdue _
  refine Shows.left (Shows.left ?_ _) _
  rcases hdue.isCommon_or_mem_own hformed (by rw [hkind]; decide) with hcommon | hown
  · have hmodifier := within_modifierText hformed hmods hdue hcommon base []
    exact ((shows_blockLines (among_containerArgs hdue.paren hmodifier _ _ mods) _).left _).left _
  · rw [hkind] at hown
    have hown : p ∈ [.items, .spacing] := hown
    simp only [mem_cons, not_mem_nil, or_false] at hown
    rcases hown with rfl | rfl
    · refine Shows.left (Shows.right (shows_of_mem mem_cons_self rfl ?_) _) _
      rw [← hdue.items hformed]
      have hsource : Within _ ("items(" ++ (itemsCode language (itemVariable depth) e).text ++ ")") :=
        (Within.refl _).between _ _
      exact (((((hsource.before _).before _).before _).before _).before _).before _
    · obtain ⟨c, hget, hs⟩ := hdue.computed hformed (by decide) hmods
      refine Shows.right ?_ _
      rw [computedText?_of_get? hget]
      exact shows_of_mem (mem_cons_of_mem _ mem_cons_self) rfl ((within_dp hs).between _ _)

theorem held_conditional (hkind : e.kind = .conditional) {condition : Option Code}
    (hcondition : propertyCode language env (itemVariable depth) e .condition .bool = .ok condition)
    (branches : Sheet) :
    Held .glance depth e
      (conditional condition (computedText? mods .visible) branches).directives := by
  intro p s hdue _
  unfold conditional
  rcases hdue.of_conditional hformed hkind with rfl | rfl
  · obtain ⟨code, rfl, hs⟩ := hdue.code hcondition
    have hguard : Shows s [.enter ("if (" ++ code.text ++ ") \x7b")] :=
      shows_of_mem mem_cons_self rfl (hs.between _ _)
    split
    · exact (((hguard.left _).left _).right _).left _
    · exact (hguard.left _).left _
  · obtain ⟨c, hget, hs⟩ := hdue.computed hformed (by decide) hmods
    rw [computedText?_of_get? hget]
    have hguard : Shows s [.enter ("if (" ++ c.text ++ ") \x7b")] :=
      shows_of_mem mem_cons_self rfl (hs.between _ _)
    exact (hguard.left _).left _

end

theorem holds_dialect : dialect.Holds .glance := by
  intro env depth flow base e mods s hformed hmods hs
  have hcount := hformed.children
  rw [setting_dialect, setting, Emission.headD_stackOf] at hs
  obtain ⟨kind, id, properties, children, place⟩ := e
  have hleaf {r : Except Error Sheet} (hs : (r >>= fun own => pure (.leaf own)) = .ok s)
      (hnone : (children.length == 0) = true) (hheld : ∀ own, r = .ok own →
        Held .glance depth ⟨kind, id, properties, children, place⟩ own.directives) :
      s.Holds .glance depth ⟨kind, id, properties, children, place⟩ := by
    obtain ⟨own, hown, hs⟩ := exists_of_bind_eq_ok hs
    rw [← Except.ok.inj hs]
    exact ⟨absurd (length_eq_zero_iff.mp (beq_iff_eq.mp hnone)), fun _ _ => hheld own hown⟩
  cases kind with
  | column | row | stack =>
    obtain rfl := Except.ok.inj hs
    refine ⟨fun _ _ => infix_append _ _ _, fun body hgaps => ?_⟩
    refine held_container hformed hmods rfl _ base ?_ (fun _ => hgaps) _
    exact fun s hparen hs => shows_blockLines (among_containerArgs hparen hs _ _ mods) _
  | scrollView =>
    obtain rfl := Except.ok.inj hs
    refine ⟨fun _ _ => infix_append _ _ _, fun body _ => ?_⟩
    refine held_container hformed hmods rfl flow base ?_ (absurd rfl) _
    exact fun s hparen hs => (shows_blockLines (among_modifierArg hparen hs) _).left _
  | label => exact hleaf hs hcount fun _ => held_label hformed hmods rfl
  | image => exact hleaf hs hcount fun _ => held_image hformed hmods rfl
  | spacer => exact hleaf hs hcount fun _ => held_spacer hformed hmods rfl
  | divider => exact hleaf hs hcount fun _ => held_divider hformed hmods rfl
  | forEach =>
    obtain rfl := Except.ok.inj hs
    exact ⟨fun _ _ => infix_append _ _ _, fun body _ => held_loop hformed hmods rfl _ _ _⟩
  | conditional =>
    obtain ⟨condition, hcondition, hs⟩ := exists_of_bind_eq_ok hs
    obtain rfl := Except.ok.inj hs
    refine ⟨fun _ body => ?_, fun body _ => held_conditional hformed hmods rfl hcondition _⟩
    have hinner := infix_append [.enter ("if (" ++ (condition.map Code.text).getD "false" ++
      ") \x7b")] body.directives [.leave "\x7d"]
    simp only [conditional]
    split
    · exact hinner.trans (infix_append _ _ _)
    · exact hinner

end Widgetry.Source.Kotlin
