import Widgetry.Proofs.Source.Sheet

/-!
# Swift sheets are sound

Under the built-in style the sheet of every element closes the blocks that it opens and ends the
indentation of the lines that are applied to it, is counted as using the helpers that its text calls,
and reads the bindings of an element inside as many loops as there are templates around it.
-/

namespace Widgetry.Source.Swift

open List

variable {scope : Scope} {uses : List Helper} {mods : List (Modifier Code)}

/-! ### Modifiers -/

variable {lines : List String}

theorem lays_modifierLines (h : Fillings scope uses lines) (m : Nat) :
    Lays (Says scope) .swiftUI uses m m [] [] [] (modifierLines lines) := by
  unfold modifierLines
  split
  · exact .nil m []
  · have hindent : Lays (Says scope) .swiftUI uses m (m + 1) [] [] [] [.indent] := .mute rfl rfl []
    have hdedent : Lays (Says scope) .swiftUI uses (m + 1) m [] [] [] [.dedent] := .mute rfl rfl []
    exact (hindent.append (.line h (m + 1))).append hdedent

theorem piece_layoutLine? {m : Modifier Code} (hm : SoundValue .swiftUI scope m.value)
    (huses : ∀ c, m.value = .computed c → c.uses ⊆ uses) {line : String}
    (h : layoutLine? m = some line) : Piece false scope uses [] [] line := by
  unfold layoutLine? at h
  split at h
  · cases h
  · split at h
    · rw [← Option.some.inj h]
      exact piece_constant (by decide)
    · rw [← Option.some.inj h]
      exact piece_constant (by decide)
    · cases h
  · rename_i c hc
    rw [hc] at hm
    have htext : Piece false scope uses [] [] c.text := (hm.operand.mono (huses c hc)).piece
    split at h
    iterate 7
      · rw [← Option.some.inj h]
        exact piece_fill _ [_] [_] (by decide) (.cons htext .nil)
    · cases h

section

variable (hmods : SoundModifiers .swiftUI scope mods) (huses : modifierUses mods ⊆ uses)

include hmods huses

theorem fillings_layoutLine? : Fillings scope uses (mods.filterMap layoutLine?) := by
  intro line hline
  obtain ⟨m, hm, h⟩ := mem_filterMap.mp hline
  refine piece_layoutLine? (hmods m hm) ?_ h
  intro c hc g hg
  exact huses (mem_flatMap.mpr ⟨m, hm, by rw [hc]; exact hg⟩)

theorem piece_stackOpening (kind : Kind) :
    Piece false scope uses [] ['\x7d'] (stackOpening .builtin kind mods).1 := by
  have hspacing : Piece false scope uses [] [] ((computedText? mods .spacing).getD "0") := by
    cases h : computedText? mods .spacing with
    | none => exact piece_constant (by decide)
    | some s => exact ((hmods.operand_computedText? h).mono huses).piece
  have hstart (p : Property) (axis : Axis) : Piece false scope uses [] []
      ((Modifier.native? mods p).getD (startOf .builtin axis)) := by
    cases h : Modifier.native? mods p with
    | some s => exact (hmods.operand_native? h).piece
    | none =>
      cases axis with
      | horizontal | vertical => exact piece_constant (by decide)
  have hh := hstart .alignment .horizontal
  have hv := hstart .crossAlignment .vertical
  unfold stackOpening
  simp only
  split
  · exact piece_fill _ [_, _] [_, _] (by decide) (.cons hv (.cons hspacing .nil))
  · exact piece_fill _ [_, _] [_, _] (by decide) (.cons hh (.cons hv .nil))
  · exact piece_fill _ [_, _] [_, _] (by decide) (.cons hh (.cons hspacing .nil))

/-! ### Texts -/

theorem piece_weightText? (hweight : weightUses mods ⊆ uses) {w : String}
    (h : weightText? mods = some w) : Piece false scope uses [] [] w := by
  unfold weightText? at h
  unfold weightUses at hweight
  split at h
  · rename_i s hs
    have hnative : Modifier.native? mods .fontWeight = some w := by
      rw [Modifier.native?, hs]
      exact h
    exact (hmods.operand_native? hnative).piece
  · rename_i c hc
    rw [hc] at hweight
    have htext : computedText? mods .fontWeight = some c.text := by
      rw [computedText?, Modifier.computed?, hc]
      rfl
    have hcall : Operand scope uses (call "fontWeight" [c.text]) :=
      operand_call .fontWeight (by decide) (hweight mem_cons_self)
        (forall_mem_singleton.mpr ((hmods.operand_computedText? htext).mono huses))
    rw [← Option.some.inj h]
    exact hcall.piece
  · cases h

end

theorem closed_weightUses (mods : List (Modifier Code)) : Closed .swiftUI (weightUses mods) := by
  unfold weightUses
  split
  · exact spelled_language.closed_require .fontWeight (by decide)
  · exact Language.closed_nil _ _

theorem fillings_textLines (hmods : SoundModifiers .swiftUI scope mods)
    (huses : modifierUses mods ⊆ uses) (hweight : weightUses mods ⊆ uses) :
    Fillings scope uses (textLines mods) := by
  have hcomputed {p : Property} {s : String} (h : computedText? mods p = some s) :
      Piece false scope uses [] [] s := ((hmods.operand_computedText? h).mono huses).piece
  refine .append (.append (.append ?_ ?_) ?_) ?_
  · split
    · rename_i s w hs hw
      exact .cons (piece_fill _ [_, _] [_, _] (by decide)
        (.cons (hcomputed hs) (.cons (piece_weightText? hmods huses hweight hw) .nil))) .nil
    · rename_i s hs _
      exact .cons (piece_fill _ [_] [_] (by decide) (.cons (hcomputed hs) .nil)) .nil
    · rename_i w _ hw
      exact .cons (piece_fill _ [_] [_] (by decide)
        (.cons (piece_weightText? hmods huses hweight hw) .nil)) .nil
    · exact .nil
  · exact .toList fun s h => piece_fill _ [_] [_] (by decide) (.cons (hcomputed h) .nil)
  · exact .toList fun s h => piece_fill _ [_] [_] (by decide) (.cons (hcomputed h) .nil)
  · exact .toList fun s h =>
      piece_fill _ [_] [_] (by decide) (.cons (hmods.operand_native? h).piece .nil)

/-! ### Views -/

/-- A view whose sheet and lines are sound. -/
structure View.Sound (depth : Nat) (e : Element) (elsewhere : List Helper) (view : View) : Prop where
  sheet : view.sheet.Sound .swiftUI depth e elsewhere
  lines : Fillings (scopeOf .swiftUI depth e) (elsewhere ++ view.sheet.uses) view.lines

section

variable {env : Env} {depth : Nat} {e : Element} {elsewhere : List Helper}

theorem sound_view {own : List Helper} (hclosed : Closed .swiftUI own) {text : String}
    (h : ∀ uses, elsewhere ⊆ uses → own ⊆ uses → Fillings (scopeOf .swiftUI depth e) uses (text :: lines)) :
    View.Sound depth e elsewhere ⟨⟨[.line text], own⟩, lines⟩ := by
  refine ⟨Sheet.leads_of_lays hclosed ?_, ?_⟩
  · intro uses helsewhere hown
    exact (Lays.text rfl rfl (h uses helsewhere hown text mem_cons_self)).emits
  · have hlines := h _ (subset_append_left elsewhere own) (subset_append_right _ _)
    exact fun s hs => hlines s (mem_cons_of_mem _ hs)

theorem yields_spacer (flow : Flow) :
    Yields (View.Sound depth e elsewhere) (spacer env (itemVariable depth) flow e) := by
  refine (yields_propertyCode .swiftUI env depth e .size .number).bind ?_
  intro size hsize
  cases size with
  | none =>
    refine sound_view (Language.closed_nil _ _) ?_
    intro uses _ _
    exact .cons (piece_constant (by decide)) .nil
  | some c =>
    refine sound_view (hsize c rfl).closed ?_
    intro uses _ hown
    have hcode : Piece false (scopeOf .swiftUI depth e) uses [] [] c.text := ((hsize c rfl).operand.mono hown).piece
    refine .cons (piece_constant (by decide)) (.cons ?_ .nil)
    cases flow with
    | vertical | horizontal => exact piece_fill _ [_] [_] (by decide) (.cons hcode .nil)
    | overlay => exact piece_fill _ [_, _] [_, _] (by decide) (.cons hcode (.cons hcode .nil))

section

variable (hmods : SoundModifiers .swiftUI (scopeOf .swiftUI depth e) mods)

include hmods

theorem sound_dressed {view : View} (hview : view.Sound depth e (modifierUses mods))
    {more : List String} (hmore : Fillings .empty [] more) :
    (dressed mods more view).Sound .swiftUI depth e (modifierUses mods) := by
  refine ⟨hview.sheet.closed.append (Language.closed_nil _ _), ?_⟩
  have huses : (dressed mods more view).uses = view.sheet.uses := append_nil _
  rw [huses]
  refine hview.sheet.lays.append (lays_modifierLines (.append (.append hview.lines ?_) ?_) 0).emits
  · exact fillings_layoutLine? hmods (subset_append_left _ _)
  · exact fun s hs => (hmore s hs).mono (Scope.empty_le _) (nil_subset _)

theorem yields_label :
    Yields (View.Sound depth e (modifierUses mods)) (label env (itemVariable depth) mods e) := by
  refine (yields_propertyCode .swiftUI env depth e .text .string).bind ?_
  intro text htext
  refine sound_view (htext.closed.append (closed_weightUses mods)) ?_
  intro uses hmodsUses hown
  obtain ⟨htextUses, hweightUses⟩ := append_subset.mp hown
  have hpiece : Piece false (scopeOf .swiftUI depth e) uses [] [] ((text.map Code.text).getD "") :=
    ((htext.operand (Piece.empty _ _ _ _)).mono htextUses).piece
  refine .cons ?_ (fillings_textLines hmods hmodsUses hweightUses)
  exact piece_fill _ [_] [_] (by decide) (.cons hpiece .nil)

theorem yields_image :
    Yields (View.Sound depth e (modifierUses mods)) (image env (itemVariable depth) mods e) := by
  refine (yields_propertyCode .swiftUI env depth e .src .string).bind ?_
  intro src hsrc
  refine (yields_propertyCode .swiftUI env depth e .size .number).bind ?_
  intro size hsize
  refine sound_view (hsrc.closed.append hsize.closed) ?_
  intro uses hmodsUses hown
  obtain ⟨hsrcUses, hsizeUses⟩ := append_subset.mp hown
  have hpiece : Piece false (scopeOf .swiftUI depth e) uses [] [] ((src.map Code.text).getD "") :=
    ((hsrc.operand (Piece.empty _ _ _ _)).mono hsrcUses).piece
  refine .cons ?_ (.append (.append ?_ (.toList ?_)) (.toList ?_))
  · exact piece_fill _ [_] [_] (by decide) (.cons hpiece .nil)
  · exact .cons (piece_constant (by decide)) (.cons (piece_constant (by decide)) .nil)
  · intro c hc
    subst hc
    have hcode : Piece false (scopeOf .swiftUI depth e) uses [] [] c.text := ((hsize c rfl).operand.mono hsizeUses).piece
    exact piece_fill _ [_, _] [_, _] (by decide) (.cons hcode (.cons hcode .nil))
  · intro s hs
    exact piece_fill _ [_] [_] (by decide)
      (.cons ((hmods.operand_computedText? hs).mono hmodsUses).piece .nil)

theorem yields_divider (flow : Flow) :
    Yields (View.Sound depth e (modifierUses mods)) (divider env (itemVariable depth) flow mods e) := by
  refine (yields_propertyCode .swiftUI env depth e .thickness .number).bind ?_
  intro thickness hthickness
  have hcolor : ((Modifier.computed? mods .color).getD (language.literal (.color .divider))).Sound
      language has (scopeOf .swiftUI depth e) := by
    cases h : Modifier.computed? mods .color with
    | none => exact Language.sound_literal spelled_language (.color .divider)
    | some c => exact (hmods.sound_computed? h).1
  refine sound_view (hthickness.closed.append hcolor.closed) ?_
  intro uses _ hown
  obtain ⟨hthicknessUses, hcolorUses⟩ := append_subset.mp hown
  have hline : Piece false (scopeOf .swiftUI depth e) uses [] [] ((thickness.map Code.text).getD (numberLiteral 1.0)) :=
    ((hthickness.operand (operand_numberLiteral 1.0)).mono hthicknessUses).piece
  have hfill := (hcolor.operand.mono hcolorUses).piece
  refine .cons (piece_constant (by decide)) (.cons ?_ (.cons ?_ .nil))
  · exact piece_fill _ [_] [_] (by decide) (.cons hfill .nil)
  · cases flow with
    | horizontal => exact piece_fill _ [_] [_] (by decide) (.cons hline .nil)
    | vertical | overlay => exact piece_fill _ [_] [_] (by decide) (.cons hline .nil)

/-! ### Elements with children -/

variable {body sheet : Sheet}

theorem sound_stack (kind : Kind) (hbody : body.Sound .swiftUI depth e []) :
    View.Sound depth e (modifierUses mods)
      ⟨Sheet.plain [.enter (stackOpening .builtin kind mods).1] ++ body ++ .plain [.leave "\x7d"],
        []⟩ := by
  have hopen := piece_stackOpening hmods (Subset.refl _) kind
  refine ⟨?_, .nil⟩
  exact .append (.append (Sheet.leads_plain (Lays.text rfl rfl hopen).emits) (hbody.leads _ 1 _))
    (Sheet.leads_leave 0 [])

theorem sound_scrollView (horizontal : Bool) (kind : Kind)
    (hbody : body.Sound .swiftUI depth e []) :
    View.Sound depth e (modifierUses mods)
      ⟨Sheet.plain [.enter ("ScrollView(" ++ (if horizontal then ".horizontal" else ".vertical")
          ++ ") \x7b"), .enter (stackOpening .builtin kind mods).1] ++ body
        ++ .plain [.leave "\x7d", .leave "\x7d"], []⟩ := by
  have haxis : Piece false (scopeOf .swiftUI depth e) (modifierUses mods) [] []
      (if horizontal then ".horizontal" else ".vertical") := by
    cases horizontal with
    | true | false => exact piece_constant (by decide)
  have hscroll : Piece false (scopeOf .swiftUI depth e) (modifierUses mods) [] ['\x7d']
      ("ScrollView(" ++ (if horizontal then ".horizontal" else ".vertical") ++ ") \x7b") :=
    piece_fill _ [_] [_] (by decide) (.cons haxis .nil)
  have hopen := (piece_stackOpening hmods (Subset.refl _) kind).frame ['\x7d']
  have hopens : Lays (Says (scopeOf .swiftUI depth e)) .swiftUI (modifierUses mods) 0 2 [] ['\x7d', '\x7d'] []
      ([.enter ("ScrollView(" ++ (if horizontal then ".horizontal" else ".vertical") ++ ") \x7b")]
        ++ [.enter (stackOpening .builtin kind mods).1]) :=
    .append (.text rfl rfl hscroll) (.text rfl rfl hopen)
  refine ⟨?_, .nil⟩
  exact .append (.append (Sheet.leads_plain hopens.emits) (hbody.leads _ 2 _))
    (.append (Sheet.leads_leave 1 _) (Sheet.leads_leave 0 _))

omit hmods in
theorem piece_list {source : Code} (hsource : source.Sound language has scope) (limit : Option Nat)
    (huses : source.uses ⊆ uses) (hitems : .items ∈ uses) :
    Piece false scope uses [] [')', ')'] ("ForEach(Array(items(" ++ source.text ++ ")" ++
      (limit.map fun n => ".prefix(" ++ toString n ++ ")").getD "") := by
  have htext : Piece false scope uses [] [] source.text := (hsource.operand.mono huses).piece
  have htaken : Trailing scope uses
      ((limit.map fun n => ".prefix(" ++ toString n ++ ")").getD "") := by
    cases limit with
    | none => exact .empty _ uses
    | some n => exact .fill (by decide) (piece_digits fun _ => isDigit_of_mem_toString)
  have hcall : Piece false scope uses [] [')', ')'] ("ForEach(Array(items(" ++ source.text ++ ")") :=
    piece_fill_calling [.items] _ [_] [_] (by simpa using hitems) (by decide) (.cons htext .nil)
  exact hcall.append (htaken.piece.frame [')', ')']) (.inr htaken.starts)

theorem sound_loop (hkind : e.kind = .forEach) {template : Sheet}
    (hnone : e.children = [] → template = .plain [])
    (htemplate : ∀ t, e.children.head? = some t → template.Sound .swiftUI (depth + 1) t []) :
    View.Sound depth e (modifierUses mods)
      ⟨loop .builtin (itemVariable depth) (depth + 1) mods e template, []⟩ := by
  have hsource := sound_itemsCode .swiftUI depth e
  have hitems : Closed .swiftUI (language.require .items) :=
    spelled_language.closed_require .items (by decide)
  have hopen (uses : List Helper) (hmodsUses : modifierUses mods ⊆ uses) :
      Lays (Says (scopeOf .swiftUI depth e)) .swiftUI uses 0 1 [] ['\x7d'] []
        [.enter (stackOpening .builtin (along e.isHorizontal) mods).1] :=
    .text rfl rfl (piece_stackOpening hmods hmodsUses _)
  have hloop := Sheet.sound_loop hkind (hsource.closed.append hitems)
    (fun uses hmodsUses _ => hopen uses hmodsUses)
    (fun uses hown => piece_list hsource e.limit? (append_subset.mp hown).1
      ((append_subset.mp hown).2 mem_cons_self))
    (fun _ _ => .nil 0 []) hnone htemplate
  simp only [loopHead, loopOpening, loopArrow, ← String.append_assoc] at hloop
  exact ⟨hloop, .nil⟩

omit hmods in
theorem sound_guard {condition : String}
    (hcondition : Operand (scopeOf .swiftUI depth e) elsewhere condition)
    (hsheet : sheet.Leads (Emits .swiftUI depth e) .swiftUI elsewhere 1 1 ['\x7d'] ['\x7d']) :
    (guarded (some condition) sheet).Sound .swiftUI depth e elsewhere := by
  have hopen : Piece false (scopeOf .swiftUI depth e) elsewhere [] ['\x7d']
      ("if " ++ condition ++ " \x7b") :=
    piece_fill _ [_] [_] (by decide) (.cons hcondition.piece .nil)
  exact .append (.append (Sheet.leads_plain (Lays.text rfl rfl hopen).emits) hsheet)
    (Sheet.leads_leave 0 [])

omit hmods in
theorem sound_conditional {condition : Option Code}
    (hcondition : SoundOption .swiftUI (scopeOf .swiftUI depth e) condition) {branches : Sheet}
    (hbranches : branches.Leads (Emits .swiftUI depth e) .swiftUI [] 1 1 ['\x7d'] ['\x7d']) :
    (Sheet.calling (usesOf condition) ++ guarded (some ((condition.map Code.text).getD "false"))
      branches).Sound .swiftUI depth e elsewhere := by
  have hfalse : Operand (scopeOf .swiftUI depth e) [] "false" := piece_constant (by decide)
  have htext := (hcondition.operand hfalse).mono (subset_append_right elsewhere _)
  exact (sound_guard htext (hbranches.mono (nil_subset _))).calling hcondition.closed

theorem sound_visible (hsheet : sheet.Sound .swiftUI depth e (modifierUses mods)) :
    (guarded (computedText? mods .visible) sheet).Sound .swiftUI depth e (modifierUses mods) := by
  cases h : computedText? mods .visible with
  | none => exact hsheet
  | some v => exact sound_guard (hmods.operand_computedText? h) (hsheet.frame 1 ['\x7d'])

end

end

theorem sound_dialect : dialect.Sound .swiftUI (Fillings .empty []) where
  language := rfl
  inner := .nil
  setting {env more depth e mods} hstyle hmore hmods flow := by
    have hdone {view : View} (h : view.Sound depth e (modifierUses mods)) :
        (guarded (computedText? mods .visible) (dressed mods more view)).Sound .swiftUI depth e
          (modifierUses mods) :=
      sound_visible hmods (sound_dressed hmods h hmore)
    obtain ⟨kind, id, properties, children, place⟩ := e
    rw [setting_dialect, setting, Emission.headD_stackOf, Emission.length_stackOf, hstyle]
    cases kind with
    | column =>
      exact fun body h => hdone (sound_stack hmods .column (h.content nofun _ 0 [] (.nil 0 [])))
    | row => exact fun body h => hdone (sound_stack hmods .row (h.content nofun _ 0 [] (.nil 0 [])))
    | stack =>
      exact fun body h => hdone (sound_stack hmods .stack (h.content nofun _ 0 [] (.nil 0 [])))
    | scrollView =>
      exact fun body h => hdone (sound_scrollView hmods _ _ (h.content nofun _ 0 [] (.nil 0 [])))
    | label => exact (yields_label hmods).bind fun _ h _ _ => hdone h
    | image => exact (yields_image hmods).bind fun _ h _ _ => hdone h
    | spacer => exact (yields_spacer flow).bind fun _ h _ _ => hdone h
    | divider => exact (yields_divider hmods flow).bind fun _ h _ _ => hdone h
    | forEach =>
      exact fun body h => hdone (sound_loop hmods rfl (h.template rfl).1 (h.template rfl).2)
    | conditional =>
      refine (yields_propertyCode .swiftUI env depth _ .condition .bool).bind ?_
      intro condition hcondition body h
      exact sound_visible hmods
        (sound_conditional hcondition (h.content nofun _ 1 _ Sheet.lays_else))

end Widgetry.Source.Swift
