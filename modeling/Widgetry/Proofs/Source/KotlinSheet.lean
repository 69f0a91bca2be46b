import Widgetry.Proofs.Source.Sheet

/-!
# Kotlin sheets are sound

Under the built-in style the sheet of every element closes the blocks and calls that it opens,
whether a call fits on a line or not, is counted as using the helpers that its text calls, and reads
the bindings of an element inside as many loops as there are templates around it.
-/

namespace Widgetry.Source.Kotlin

open List

variable {scope : Scope} {uses : List Helper}

/-! ### Calls and blocks -/

variable {s : String}

theorem operand_dp (hs : Operand scope uses s) : Operand scope uses (dp s) :=
  operand_member (operand_group hs) (by decide)

section

variable {name : List Char} {args : List String}

theorem lays_args (hargs : Fillings scope uses args) (m : Nat) (st : List Char) :
    Lays (Says scope) .glance uses m m st st [] (args.map fun a => .line (a ++ ",")) := by
  have hmap : (args.map fun a => Directive.line (a ++ ",")) =
      (args.map fun a => a ++ ",").map .line := by
    rw [map_map]
    rfl
  have hlines : ∀ s ∈ args.map fun a => a ++ ",", Piece false scope uses st st s := by
    intro s hs
    obtain ⟨a, ha, rfl⟩ := mem_map.mp hs
    have hcomma : Piece false scope uses [] [] "," := piece_constant (by decide)
    exact ((hargs a ha).append hcomma (.inr (by decide))).frame st
  rw [hmap]
  exact .line hlines m

theorem lays_callLines (scope : Scope) (hname : isCallee name = true) (hargs : Fillings scope uses args) :
    Lays (Says scope) .glance uses 0 0 [] [] [] (callLines (String.ofList name) args) := by
  have hcall : Piece false scope uses [] [')'] (String.ofList name ++ "(") := piece_callee hname
  unfold callLines
  simp only
  split
  · exact .text rfl rfl (hcall.call hargs)
  · have hclose : Piece false scope uses [')'] [] ")" := piece_constant (by decide)
    have hopen : Lays (Says scope) .glance uses 0 1 [] [')'] [] [.enter (String.ofList name ++ "(")] :=
      .text rfl rfl hcall
    exact (hopen.append (lays_args hargs 1 [')'])).append (.text rfl rfl hclose)

theorem lays_blockLines (scope : Scope) (hname : isCallee name = true) (hargs : Fillings scope uses args) :
    Lays (Says scope) .glance uses 0 1 [] ['\x7d'] [] (blockLines (String.ofList name) args) := by
  have hcall : Piece false scope uses [] [')'] (String.ofList name ++ "(") := piece_callee hname
  have hblock : Piece false scope uses [] ['\x7d'] (String.ofList name ++ " \x7b") :=
    piece_block hname
  unfold blockLines
  split
  · exact .text rfl rfl hblock
  · simp only
    split
    · have hbrace : Piece false scope uses [] ['\x7d'] " \x7b" := piece_constant (by decide)
      exact .text rfl rfl ((hcall.call hargs).append hbrace (.inr (by decide)))
    · have hclose : Piece false scope uses [')'] ['\x7d'] ") \x7b" :=
        piece_constant (by decide)
      have hopen : Lays (Says scope) .glance uses 0 1 [] [')'] []
          [.enter (String.ofList name ++ "(")] := .text rfl rfl hcall
      exact (hopen.append (lays_args hargs 1 [')'])).append (.text rfl rfl hclose)

end

/-! ### Modifiers -/

section

variable {mods : List (Modifier Code)} {base : String} {more : List String}

theorem trailing_modifierCall {m : Modifier Code} (hm : SoundValue .glance scope m.value)
    (huses : ∀ c, m.value = .computed c → c.uses ⊆ uses) : Trailing scope uses (modifierCall m) := by
  unfold modifierCall
  split
  · exact .empty scope uses
  · split
    · exact .constant (by decide)
    · exact .constant (by decide)
    · exact .empty scope uses
  · rename_i c hc
    rw [hc] at hm
    have htext : Operand scope uses c.text := hm.operand.mono (huses c hc)
    have hdp : Piece false scope uses [] [] (dp c.text) := (operand_dp htext).piece
    split
    · exact .fill (by decide) hdp
    · exact .fill (by decide) hdp
    · exact .fill (by decide) htext.piece
    · exact .fill (by decide) hdp
    · exact .fill (by decide) hdp
    · exact .fill (by decide) hdp
    · exact .fill (by decide) hdp
    · exact .fill (by decide) htext.piece
    · exact .empty scope uses

theorem piece_modifierText (hmods : SoundModifiers .glance scope mods)
    (huses : modifierUses mods ⊆ uses) (hbase : Piece false scope uses [] [] base)
    (hmore : ∀ s ∈ more, Trailing scope uses s) :
    Piece false scope uses [] [] (modifierText base mods more) := by
  have hcalls : Trailing scope uses (String.join (mods.map modifierCall)) := by
    refine .join ?_
    intro s hs
    obtain ⟨m, hm, rfl⟩ := mem_map.mp hs
    refine trailing_modifierCall (hmods m hm) ?_
    intro c hc g hg
    exact huses (mem_flatMap.mpr ⟨m, hm, by rw [hc]; exact hg⟩)
  have hlast := Trailing.join hmore
  exact (hbase.append hcalls.piece (.inr hcalls.starts)).append hlast.piece (.inr hlast.starts)

theorem fillings_modifierArg {modifier : String} (h : Piece false scope uses [] [] modifier) :
    Fillings scope uses (modifierArg modifier) := by
  unfold modifierArg
  split
  · exact .nil
  · exact .cons (piece_lead (by decide) h) .nil

theorem piece_noModifier : Piece false scope uses [] [] noModifier := piece_constant (by decide)

end

/-! ### Arguments of elements -/

section

variable {mods : List (Modifier Code)} {modifier : String}

theorem fillings_containerArgs (hmods : SoundModifiers .glance scope mods) (name : String)
    (hmodifier : Piece false scope uses [] [] modifier) :
    Fillings scope uses (containerArgs .builtin name modifier mods) := by
  have hnative {p : Property} {s : String} (h : Modifier.native? mods p = some s) :
      Piece false scope uses [] [] s := (hmods.operand_native? h).piece
  have hgetD (p : Property) (axis : Axis) : Piece false scope uses [] []
      ((Modifier.native? mods p).getD ((Style.builtin.alignment? .glance axis .start).getD "")) := by
    cases h : Modifier.native? mods p with
    | some s => exact hnative h
    | none =>
      cases axis with
      | horizontal | vertical => exact piece_constant (by decide)
  unfold containerArgs
  simp only
  split
  · split
    · refine Fillings.append (fillings_modifierArg hmodifier) (.cons ?_ .nil)
      exact piece_fill _ [_, _] [_, _] (by decide)
        (.cons (hgetD .alignment .horizontal) (.cons (hgetD .crossAlignment .vertical) .nil))
    · exact fillings_modifierArg hmodifier
  · refine Fillings.append (Fillings.append (fillings_modifierArg hmodifier) ?_) ?_
    · exact Fillings.toList fun s h => piece_lead (by decide) (hnative h)
    · exact Fillings.toList fun s h => piece_lead (by decide) (hnative h)

theorem lays_gap (flow : Flow) {spacing : String} (hspacing : Operand scope uses spacing) (m : Nat) :
    Lays (Says scope) .glance uses m m [] [] [] [gap flow spacing] := by
  have hdp : Piece false scope uses [] [] (dp spacing) := (operand_dp hspacing).piece
  have htext : gap flow spacing = .line ((if flow = .horizontal then
      "Spacer(modifier = GlanceModifier.width(" else "Spacer(modifier = GlanceModifier.height(")
      ++ dp spacing ++ "))") := by
    unfold gap
    split <;> rfl
  rw [htext]
  split
  · exact .text rfl rfl (piece_fill _ [_] [_] (by decide) (.cons hdp .nil))
  · exact .text rfl rfl (piece_fill _ [_] [_] (by decide) (.cons hdp .nil))

theorem fillings_textStyle (hmods : SoundModifiers .glance scope mods)
    (huses : modifierUses mods ⊆ uses) (hweight : weightUses mods ⊆ uses) :
    Fillings scope uses (textStyle mods) := by
  have hcomputed {p : Property} {s : String} (h : computedText? mods p = some s) :
      Operand scope uses s := (hmods.operand_computedText? h).mono huses
  refine Fillings.append (Fillings.append (Fillings.append ?_ ?_) ?_) ?_
  · exact Fillings.toList fun s h =>
      piece_fill _ [_] [_] (by decide) (.cons (hcomputed h).piece .nil)
  · exact Fillings.toList fun s h =>
      piece_lead (by decide) (operand_member (operand_group (hcomputed h)) (by decide)).piece
  · unfold weightUses at hweight
    split
    · rename_i s h
      have hnative : Modifier.native? mods .fontWeight = some s := by rw [Modifier.native?, h]
      exact .cons (piece_lead (by decide) (hmods.operand_native? hnative).piece) .nil
    · rename_i c h
      rw [h] at hweight
      have htext : computedText? mods .fontWeight = some c.text := by
        rw [computedText?, Modifier.computed?, h]
        rfl
      have hcall : Operand scope uses (call "fontWeight" [c.text]) :=
        operand_call .fontWeight (by decide) (hweight mem_cons_self)
          (forall_mem_singleton.mpr (hcomputed htext))
      exact .cons (piece_lead (by decide) hcall.piece) .nil
    · exact .nil
  · exact Fillings.toList fun s h =>
      piece_lead (by decide) (hmods.operand_native? h).piece

theorem closed_weightUses (mods : List (Modifier Code)) : Closed .glance (weightUses mods) := by
  unfold weightUses
  split
  · exact spelled_language.closed_require .fontWeight (by decide)
  · exact Language.closed_nil _ _

end

/-! ### Elements without children -/

section

variable {env : Env} {depth : Nat} {mods : List (Modifier Code)} {base : String} {e : Element}

section

variable (hmods : SoundModifiers .glance (scopeOf .glance depth e) mods)
  (hbase : Piece false .empty [] [] [] base)

include hmods hbase

theorem yields_label :
    Yields (Sheet.Sound .glance depth e (modifierUses mods)) (label env (itemVariable depth) base mods e) := by
  refine (yields_propertyCode .glance env depth e .text .string).bind ?_
  intro text htext
  refine Sheet.leads_of_lays (htext.closed.append (closed_weightUses mods)) ?_
  intro uses hmodsUses hown
  obtain ⟨htextUses, hweightUses⟩ := append_subset.mp hown
  have htextPiece : Piece false (scopeOf .glance depth e) uses [] [] ((text.map Code.text).getD "") :=
    ((htext.operand (Piece.empty _ _ _ _)).mono htextUses).piece
  have hmodifier : Piece false (scopeOf .glance depth e) uses [] [] (modifierText base mods []) :=
    piece_modifierText hmods hmodsUses (hbase.mono (Scope.empty_le _) (nil_subset _))
      (forall_mem_nil _)
  have hstyle := fillings_textStyle hmods hmodsUses hweightUses
  refine Lays.emits (lays_callLines _ (by decide) ?_)
  refine Fillings.append (Fillings.append (Fillings.append ?_ (fillings_modifierArg hmodifier)) ?_) ?_
  · exact .cons (piece_lead (by decide) htextPiece) .nil
  · split
    · exact .nil
    · exact .cons (piece_lead (by decide) ((piece_callee (by decide)).call hstyle)) .nil
  · refine Fillings.toList fun s h => ?_
    exact piece_fill _ [_] [_] (by decide)
      (.cons (operand_group ((hmods.operand_computedText? h).mono hmodsUses)).piece .nil)

theorem yields_image :
    Yields (Sheet.Sound .glance depth e (modifierUses mods)) (image env (itemVariable depth) base mods e) := by
  refine (yields_propertyCode .glance env depth e .src .string).bind ?_
  intro src hsrc
  refine (yields_propertyCode .glance env depth e .size .number).bind ?_
  intro size hsize
  refine Sheet.leads_of_lays (hsrc.closed.append hsize.closed) ?_
  intro uses hmodsUses hown
  obtain ⟨hsrcUses, hsizeUses⟩ := append_subset.mp hown
  have hsrcPiece : Piece false (scopeOf .glance depth e) uses [] [] ((src.map Code.text).getD "") :=
    ((hsrc.operand (Piece.empty _ _ _ _)).mono hsrcUses).piece
  have hsized : ∀ s ∈ (size.map fun c => ".size(" ++ dp c.text ++ ")").toList,
      Trailing (scopeOf .glance depth e) uses s := by
    intro s hs
    obtain ⟨c, rfl, rfl⟩ := Option.map_eq_some_iff.mp (Option.mem_toList.mp hs)
    exact .fill (by decide) (operand_dp ((hsize c rfl).operand.mono hsizeUses)).piece
  have hmodifier := piece_modifierText hmods hmodsUses
    (hbase.mono (Scope.empty_le _) (nil_subset _)) hsized
  refine Lays.emits (lays_callLines _ (by decide) ?_)
  refine Fillings.append (Fillings.append ?_ (fillings_modifierArg hmodifier)) ?_
  · exact .cons (piece_fill _ [_] [_] (by decide) (.cons hsrcPiece .nil))
      (.cons (piece_constant (by decide)) .nil)
  · refine Fillings.toList fun s h => ?_
    exact piece_fill _ [_] [_] (by decide)
      (.cons ((hmods.operand_computedText? h).mono hmodsUses).piece .nil)

end

section

variable (flow : Flow) (hmods : SoundModifiers .glance (scopeOf .glance depth e) mods)
  (hbase : Piece false .empty [] [] [] base)

include flow hmods hbase

theorem yields_spacer :
    Yields (Sheet.Sound .glance depth e (modifierUses mods))
      (spacer env (itemVariable depth) flow base mods e) := by
  refine (yields_propertyCode .glance env depth e .size .number).bind ?_
  intro size hsize
  refine Sheet.leads_of_lays hsize.closed ?_
  intro uses hmodsUses hsizeUses
  refine Lays.emits (lays_callLines _ (by decide) (fillings_modifierArg ?_))
  refine piece_modifierText hmods hmodsUses (hbase.mono (Scope.empty_le _) (nil_subset _)) ?_
  refine forall_mem_singleton.mpr ?_
  cases size with
  | some c =>
    have hdp : Piece false (scopeOf .glance depth e) uses [] [] (dp c.text) :=
      (operand_dp ((hsize c rfl).operand.mono hsizeUses)).piece
    cases flow with
    | vertical | horizontal | overlay => exact .fill (by decide) hdp
  | none =>
    cases flow with
    | overlay => exact .empty _ uses
    | vertical | horizontal =>
      simp only
      split
      · exact .empty _ uses
      · exact .constant (by decide)

theorem yields_divider :
    Yields (Sheet.Sound .glance depth e (modifierUses mods))
      (divider env (itemVariable depth) flow base mods e) := by
  refine (yields_propertyCode .glance env depth e .thickness .number).bind ?_
  intro thickness hthickness
  refine Sheet.leads_of_lays hthickness.closed ?_
  intro uses hmodsUses hthicknessUses
  have hline : Piece false (scopeOf .glance depth e) uses [] []
      (dp ((thickness.map Code.text).getD (numberLiteral 1.0))) :=
    (operand_dp ((hthickness.operand (operand_numberLiteral 1.0)).mono hthicknessUses)).piece
  have hcolor : Piece false (scopeOf .glance depth e) uses [] []
      ((Modifier.computed? mods .color).getD (language.literal (.color .divider))).text := by
    cases h : Modifier.computed? mods .color with
    | none => exact (operand_color Color.divider).piece
    | some c =>
      obtain ⟨hsound, hsub⟩ := hmods.sound_computed? h
      exact (hsound.operand.mono (Subset.trans hsub hmodsUses)).piece
  have hbox {stretched : String} (hstretched : Trailing (scopeOf .glance depth e) uses stretched) :
      Lays (Emits .glance depth e) .glance uses 0 0 [] [] [] [.line ("Box(modifier = " ++ modifierText base mods
        [stretched, ".background(" ++ ((Modifier.computed? mods .color).getD
          (language.literal (.color .divider))).text ++ ")"] ++ ") \x7b\x7d")] := by
    have hground : Trailing (scopeOf .glance depth e) uses (".background(" ++ ((Modifier.computed? mods .color).getD
        (language.literal (.color .divider))).text ++ ")") := .fill (by decide) hcolor
    have hmodifier := piece_modifierText hmods hmodsUses
      (hbase.mono (Scope.empty_le _) (nil_subset _))
      (forall_mem_cons.mpr ⟨hstretched, forall_mem_singleton.mpr hground⟩)
    exact (Lays.text rfl rfl (piece_fill _ [_] [_] (by decide) (.cons hmodifier .nil))).emits
  cases flow with
  | horizontal => exact hbox (.fill (by decide) hline)
  | vertical | overlay => exact hbox (.fill (by decide) hline)

end

end

/-! ### Elements with children -/

section

variable {depth : Nat} {e : Element} {elsewhere : List Helper} {mods : List (Modifier Code)}
  {base : String}

theorem lays_if {condition : String} (hcondition : Operand scope uses condition) (m : Nat)
    (st : List Char) :
    Lays (Says scope) .glance uses m (m + 1) st ('\x7d' :: st) []
      [.enter ("if (" ++ condition ++ ") \x7b")] := by
  have hline : Piece false scope uses [] ['\x7d'] ("if (" ++ condition ++ ") \x7b") :=
    piece_fill _ [_] [_] (by decide) (.cons hcondition.piece .nil)
  exact .text rfl rfl (hline.frame st)

theorem piece_list {source : Code} (hsource : source.Sound language has scope) (limit : Option Nat)
    (huses : source.uses ⊆ uses) (hitems : .items ∈ uses) :
    Piece false scope uses [] [] ("items(" ++ source.text ++ ")" ++
      (limit.map fun n => ".take(" ++ toString n ++ ")").getD "") := by
  have htext : Piece false scope uses [] [] source.text := (hsource.operand.mono huses).piece
  have htake : Trailing scope uses ((limit.map fun n => ".take(" ++ toString n ++ ")").getD "") := by
    cases limit with
    | none => exact .empty _ uses
    | some n => exact .fill (by decide) (piece_digits fun _ => isDigit_of_mem_toString)
  have hcall : Piece false scope uses [] [] ("items(" ++ source.text ++ ")") :=
    piece_fill_calling [.items] _ [_] [_] (by simpa using hitems) (by decide) (.cons htext .nil)
  exact hcall.append htake.piece (.inr htake.starts)

theorem lays_gaps (flow : Flow) (hmods : SoundModifiers .glance scope mods)
    (huses : modifierUses mods ⊆ uses) (k : Nat) :
    Lays (Says (scope.counting k)) .glance uses 0 0 [] [] []
      (match computedText? mods .spacing with
        | some s => [.enter ("if (" ++ indexVariable k ++ " > 0) \x7b"), gap flow s, .leave "\x7d"]
        | none => []) := by
  split
  · rename_i s hs
    have hcondition : Piece false (scope.counting k) uses [] ['\x7d']
        ("if (" ++ indexVariable k ++ " > 0) \x7b") :=
      piece_fill _ [_] [_] (by decide) (.cons (piece_indexVariable mem_cons_self) .nil)
    have hspacing : Operand (scope.counting k) uses s :=
      Piece.mono (hmods.operand_computedText? hs) (Scope.le_counting k scope) huses
    have hopen : Lays (Says (scope.counting k)) .glance uses 0 1 [] ['\x7d'] []
        [.enter ("if (" ++ indexVariable k ++ " > 0) \x7b")] := .text rfl rfl hcondition
    have hgap : Lays (Says (scope.counting k)) .glance uses 1 1 ['\x7d'] ['\x7d'] [] [gap flow s] :=
      (lays_gap flow hspacing 0).frame 1 ['\x7d']
    have hbrace : Piece false (scope.counting k) uses ['\x7d'] [] "\x7d" := piece_constant (by decide)
    have hclose : Lays (Says (scope.counting k)) .glance uses 1 0 ['\x7d'] [] [] [.leave "\x7d"] :=
      .text rfl rfl hbrace
    exact (hopen.append hgap).append hclose
  · exact .nil 0 []

theorem exists_container (kind : Kind) :
    ∃ name flow, container kind = (String.ofList name, flow) ∧ isCallee name = true := by
  unfold container
  split
  · exact ⟨_, _, rfl, by decide⟩
  · exact ⟨_, _, rfl, by decide⟩
  · exact ⟨_, _, rfl, by decide⟩

variable {name : List Char} {body : Sheet}

theorem lays_container (hmods : SoundModifiers .glance scope mods)
    (huses : modifierUses mods ⊆ uses) (hbase : Piece false .empty [] [] [] base)
    (hname : isCallee name = true) :
    Lays (Says scope) .glance uses 0 1 [] ['\x7d'] [] (blockLines (String.ofList name)
      (containerArgs .builtin (String.ofList name) (modifierText base mods []) mods)) := by
  have hmodifier : Piece false scope uses [] [] (modifierText base mods []) :=
    piece_modifierText hmods huses (hbase.mono (Scope.empty_le _) (nil_subset _))
      (forall_mem_nil _)
  exact lays_blockLines scope hname (fillings_containerArgs hmods _ hmodifier)

theorem sound_loop (hkind : e.kind = .forEach)
    (hmods : SoundModifiers .glance (scopeOf .glance depth e) mods)
    (hbase : Piece false .empty [] [] [] base) {template : Sheet}
    (hnone : e.children = [] → template = .plain [])
    (htemplate : ∀ t, e.children.head? = some t → template.Sound .glance (depth + 1) t []) :
    (loop .builtin (itemVariable depth) (depth + 1) base mods e template).Sound .glance depth e
      (modifierUses mods) := by
  obtain ⟨name, flow, halong, hname⟩ := exists_container (if e.isHorizontal then .row else .column)
  have hsource := sound_itemsCode .glance depth e
  have hitems : Closed .glance (language.require .items) :=
    spelled_language.closed_require .items (by decide)
  have hloop := Sheet.sound_loop hkind (hsource.closed.append hitems)
    (fun uses hmodsUses _ => lays_container hmods hmodsUses hbase hname)
    (fun uses hown => piece_list hsource e.limit? (append_subset.mp hown).1
      ((append_subset.mp hown).2 mem_cons_self))
    (fun uses hmodsUses => lays_gaps flow hmods hmodsUses (depth + 1)) hnone htemplate
  unfold loop along
  rw [halong]
  simp only [loopHead, loopOpening, loopArrow, ← String.append_assoc] at hloop
  exact hloop

theorem sound_conditional {condition : Option Code}
    (hcondition : SoundOption .glance (scopeOf .glance depth e) condition) {visible : Option String}
    (hvisible : ∀ v, visible = some v → Operand (scopeOf .glance depth e) elsewhere v)
    {branches : Sheet}
    (hbranches : branches.Leads (Emits .glance depth e) .glance elsewhere 1 1 ['\x7d'] ['\x7d']) :
    (conditional condition visible branches).Sound .glance depth e elsewhere := by
  have hopen (m : Nat) (st : List Char) : Sheet.Leads (Emits .glance depth e) .glance elsewhere m
      (m + 1) st ('\x7d' :: st)
      ⟨[.enter ("if (" ++ (condition.map Code.text).getD "false" ++ ") \x7b")], usesOf condition⟩ := by
    have hfalse : Operand (scopeOf .glance depth e) [] "false" := piece_constant (by decide)
    refine Sheet.leads_of_lays hcondition.closed ?_
    intro uses _ hown
    exact (lays_if ((hcondition.operand hfalse).mono hown) m st).emits
  unfold conditional
  cases visible with
  | none => exact ((hopen 0 []).append hbranches).append (Sheet.leads_leave 0 [])
  | some v =>
    have hguard : (Sheet.plain [.enter ("if (" ++ v ++ ") \x7b")]).Leads (Emits .glance depth e)
        .glance elsewhere 0 1 [] ['\x7d'] :=
      Sheet.leads_plain (lays_if (hvisible v rfl) 0 []).emits
    have hguarded := ((hopen 1 ['\x7d']).append (hbranches.frame 1 ['\x7d'])).append
      (Sheet.leads_leave 1 ['\x7d'])
    exact (hguard.append hguarded).append (Sheet.leads_leave 0 [])

section

variable (hmods : SoundModifiers .glance (scopeOf .glance depth e) mods)
  (hbase : Piece false .empty [] [] [] base) (hname : isCallee name = true)
  (hbody : body.Sound .glance depth e (modifierUses mods))

include hmods hbase hname hbody

theorem sound_container :
    (Sheet.plain (blockLines (String.ofList name) (containerArgs .builtin (String.ofList name)
      (modifierText base mods []) mods)) ++ body ++ .plain [.leave "\x7d"]).Sound .glance depth e
      (modifierUses mods) := by
  refine .append (.append (Sheet.leads_plain ?_) (hbody.frame 1 ['\x7d'])) (Sheet.leads_leave 0 [])
  exact (lays_container hmods (Subset.refl _) hbase hname).emits

theorem sound_scrollView :
    (Sheet.plain (blockLines "LazyColumn" (modifierArg (modifierText base mods []))
        ++ [.enter "item \x7b", .enter (String.ofList name ++ " \x7b")]) ++ body
      ++ .plain [.leave "\x7d", .leave "\x7d", .leave "\x7d"]).Sound .glance depth e
      (modifierUses mods) := by
  have hmodifier : Piece false (scopeOf .glance depth e) (modifierUses mods) [] []
      (modifierText base mods []) :=
    piece_modifierText hmods (Subset.refl _)
      (hbase.mono (Scope.empty_le _) (nil_subset _)) (forall_mem_nil _)
  have hlist : Lays (Says (scopeOf .glance depth e)) .glance (modifierUses mods) 0 1 [] ['\x7d'] []
      (blockLines "LazyColumn" (modifierArg (modifierText base mods []))) :=
    lays_blockLines _ (by decide) (fillings_modifierArg hmodifier)
  have hitem : Piece false (scopeOf .glance depth e) (modifierUses mods) [] ['\x7d'] "item \x7b" :=
    piece_constant (by decide)
  have hinner : Piece false (scopeOf .glance depth e) (modifierUses mods) [] ['\x7d']
      (String.ofList name ++ " \x7b") := piece_block hname
  have hopens : Lays (Says (scopeOf .glance depth e)) .glance (modifierUses mods) 1 3 ['\x7d']
      ['\x7d', '\x7d', '\x7d'] []
      ([.enter "item \x7b"] ++ [.enter (String.ofList name ++ " \x7b")]) :=
    .append (.text rfl rfl (hitem.frame ['\x7d'])) (.text rfl rfl (hinner.frame ['\x7d', '\x7d']))
  refine .append (.append (Sheet.leads_plain (hlist.append hopens).emits)
    (hbody.frame 3 ['\x7d', '\x7d', '\x7d'])) ?_
  exact .append (Sheet.leads_leave 2 _) (.append (Sheet.leads_leave 1 _) (Sheet.leads_leave 0 _))

end

end

/-- What stands between the children of a container. -/
theorem lays_between {mods : List (Modifier Code)} (hmods : SoundModifiers .glance scope mods)
    (flow : Flow) : Lays (Says scope) .glance (modifierUses mods) 0 0 [] [] []
      ((computedText? mods .spacing).map (gap flow)).toList := by
  cases h : computedText? mods .spacing with
  | none => exact .nil 0 []
  | some s => exact lays_gap flow (hmods.operand_computedText? h) 0

theorem sound_dialect : dialect.Sound .glance (Piece false .empty [] [] []) where
  language := rfl
  inner := piece_noModifier
  setting {env base depth e mods} hstyle hbase hmods flow := by
    obtain ⟨kind, id, properties, children, place⟩ := e
    rw [setting_dialect, setting, Emission.headD_stackOf, Emission.length_stackOf, hstyle]
    cases kind with
    | column | row | stack =>
      exact fun body h => sound_container hmods hbase (by decide)
        (h.content nofun _ 0 [] (lays_between hmods _).emits)
    | scrollView =>
      obtain ⟨name, inner, halong, hname⟩ := exists_container
        (if Element.isHorizontal ⟨.scrollView, id, properties, children, place⟩ then .row else .column)
      simp only [along, halong]
      exact fun body h => sound_scrollView hmods hbase hname (h.content nofun _ 0 [] (.nil 0 []))
    | label => exact (yields_label hmods hbase).bind fun _ h _ _ => h
    | image => exact (yields_image hmods hbase).bind fun _ h _ _ => h
    | spacer => exact (yields_spacer flow hmods hbase).bind fun _ h _ _ => h
    | divider => exact (yields_divider flow hmods hbase).bind fun _ h _ _ => h
    | forEach =>
      exact fun body h => sound_loop rfl hmods hbase (h.template rfl).1 (h.template rfl).2
    | conditional =>
      refine (yields_propertyCode .glance env depth _ .condition .bool).bind ?_
      intro condition hcondition body h
      exact sound_conditional hcondition (fun _ => hmods.operand_computedText?)
        (h.content nofun _ 1 _ Sheet.lays_else)

end Widgetry.Source.Kotlin
