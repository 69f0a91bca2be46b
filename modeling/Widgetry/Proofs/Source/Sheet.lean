import Widgetry.Proofs.Expr.Checking
import Widgetry.Proofs.Source.Emission
import Widgetry.Proofs.Source.Scoping

/-!
# Sheets that close what they open

The directives of a sheet lead from one level of indentation and some open brackets to others. A
sound sheet leaves both as it found them, is counted as using every helper that its text calls, and
consists of the lines of an element. The values that elements set, be they computed or native
constants of the built-in style, are operands in it.
-/

namespace Widgetry.Source

open List

/-- Helpers of a target with all that they call. -/
def Closed (target : SourceTarget) (uses : List Helper) : Prop :=
  (language target).Closed (has target) uses

/-! ### Directives -/

/-- Directives that lead from a level and some open brackets to others and define certain names, and
whose lines have a property. -/
structure Lays (Q : List String → Prop) (target : SourceTarget) (uses : List Helper)
    (m n : Nat) (p q : List Char) (names : List (List Char)) (ds : List Directive) : Prop where
  levels : ds.foldlM Directive.level? m = some n
  passes : ∀ comments, Passes comments target uses p q names (ds.flatMap Directive.lines)
  lines : Q (ds.flatMap Directive.lines)

variable {s list : String} {Q' : List String → Prop} {gaps : List Directive}

theorem lines_of_notMem (h : '\n' ∉ s.toList) : Text.lines s = [s] := by
  rw [Text.lines, Text.splitOn_of_notMem h, map_singleton, String.ofList_toList]

namespace Lays

variable {Q : List String → Prop} {target : SourceTarget} {scope : Scope}
  {uses : List Helper} {k m n : Nat} {p q r : List Char} {names more : List (List Char)}
  {ds es : List Directive} {d : Directive} {s : String}

theorem imp (h : Lays Q target uses m n p q names ds) (himp : ∀ ls, Q ls → Q' ls) :
    Lays Q' target uses m n p q names ds :=
  ⟨h.levels, h.passes, himp _ h.lines⟩

variable {depth : Nat} {e : Element}

theorem emits (h : Lays (Says (scopeOf target depth e)) target uses m n p q names ds) :
    Lays (Emits target depth e) target uses m n p q names ds :=
  h.imp fun _ => Says.emits

theorem nil [Gathers Q] (m : Nat) (p : List Char) : Lays Q target uses m m p p [] [] :=
  ⟨rfl, fun _ => .nil p, Gathers.nil⟩

theorem append [Gathers Q] (hds : Lays Q target uses k m p q names ds)
    (hes : Lays Q target uses m n q r more es) :
    Lays Q target uses k n p r (names ++ more) (ds ++ es) := by
  refine ⟨?_, fun comments => ?_, ?_⟩
  · rw [foldlM_append, hds.levels]
    exact hes.levels
  · rw [flatMap_append]
    exact (hds.passes comments).append (hes.passes comments)
  · rw [flatMap_append]
    exact Gathers.append hds.lines hes.lines

theorem mono (h : Lays Q target uses m n p q names ds) {uses' : List Helper}
    (hsub : uses ⊆ uses') : Lays Q target uses' m n p q names ds :=
  ⟨h.levels, fun comments => (h.passes comments).mono hsub, h.lines⟩

theorem frame (h : Lays Q target uses m n p q names ds) (k : Nat) (st : List Char) :
    Lays Q target uses (m + k) (n + k) (p ++ st) (q ++ st) names ds :=
  ⟨Directive.foldlM_level?_add h.levels k, fun comments => (h.passes comments).frame st,
    h.lines⟩

theorem lines_of_text (hd : d.text? = some s) (hs : '\n' ∉ s.toList) :
    [d].flatMap Directive.lines = [s] := by
  rw [flatMap_singleton, Directive.lines, hd]
  exact lines_of_notMem hs

theorem text_of_fits (hd : d.text? = some s) (hlevel : d.level? m = some n)
    (hs : Fits false uses p q s) (hlines : Q [s]) : Lays Q target uses m n p q [] [d] := by
  refine ⟨?_, fun comments => ?_, ?_⟩
  · rw [foldlM_cons, hlevel]
    rfl
  · rw [lines_of_text hd hs.1]
    exact .single (hs.passage comments target)
  · rwa [lines_of_text hd hs.1]

theorem text (hd : d.text? = some s) (hlevel : d.level? m = some n)
    (hs : Piece false scope uses p q s) : Lays (Says scope) target uses m n p q [] [d] :=
  text_of_fits hd hlevel hs.fits (forall_mem_singleton.mpr hs.speaks)

/-- A directive that writes nothing, or an empty line. -/
theorem mute [Gathers Q] (hd : d.text? = none) (hlevel : d.level? m = some n) (p : List Char) :
    Lays Q target uses m n p p [] [d] := by
  have hlines : [d].flatMap Directive.lines = [] := by
    rw [flatMap_singleton, Directive.lines, hd]
  refine ⟨?_, fun _ => ?_, ?_⟩
  · rw [foldlM_cons, hlevel]
    rfl
  · rw [hlines]
    exact .nil p
  · rw [hlines]
    exact Gathers.nil

theorem line {ls : List String} (hls : ∀ s ∈ ls, Piece false scope uses p p s) (m : Nat) :
    Lays (Says scope) target uses m m p p [] (ls.map .line) := by
  induction ls with
  | nil => exact nil m p
  | cons s ls ih =>
    have hs : Lays (Says scope) target uses m m p p [] [.line s] :=
      text rfl rfl (hls s mem_cons_self)
    exact hs.append (ih fun t ht => hls t (mem_cons_of_mem _ ht))

theorem loop {body : List Directive} (hkind : e.kind = .forEach)
    (hlist : Piece false (scopeOf target depth e) uses [] (listBrackets target) list)
    (hgaps : Lays (Says ((scopeOf target depth e).counting (depth + 1))) target uses 0 0 [] [] [] gaps)
    (hnone : e.children = [] → body = []) (hbody : ∀ t, e.children.head? = some t →
      Lays (Emits target (depth + 1) t) target uses 0 0 [] [] [] body) :
    Lays (Emits target depth e) target uses 0 0 [] [] []
      ([.enter (list ++ loopHead target (depth + 1))] ++ (gaps ++ body) ++ [.leave "\x7d"]) := by
  have hhead : Fits false uses (listBrackets target) ['\x7d'] (loopHead target (depth + 1)) :=
    fits_loopHead target (Nat.succ_pos depth)
  have hseam := hlist.fits.append hhead (.inr (startsApart_loopHead target _))
  have hinner : Lays (fun _ => True) target uses 0 0 [] [] [] (gaps ++ body) := by
    have htemplate : Lays (fun _ => True) target uses 0 0 [] [] [] body := by
      cases hchildren : e.children with
      | nil =>
        rw [hnone hchildren]
        exact nil 0 []
      | cons t rest => exact (hbody t (by rw [hchildren]; rfl)).imp fun _ _ => trivial
    exact (hgaps.imp fun _ _ => trivial).append htemplate
  have hclose : Piece false .empty uses ['\x7d'] [] "\x7d" := piece_constant (by decide)
  have hbrace := hclose.fits
  have hall : Lays (fun _ => True) target uses 0 0 [] [] []
      ([.enter (list ++ loopHead target (depth + 1))] ++ (gaps ++ body) ++ [.leave "\x7d"]) :=
    ((text_of_fits rfl rfl hseam trivial).append (hinner.frame 1 ['\x7d'])).append
      (text_of_fits rfl rfl hbrace trivial)
  refine ⟨hall.levels, hall.passes, ?_⟩
  have hnest := (hinner.passes true).foldlM_solid
  rw [flatMap_append] at hnest
  rw [flatMap_append, flatMap_append, lines_of_text rfl hseam.1,
    lines_of_text rfl hbrace.1, flatMap_append, singleton_append, List.cons_append]
  refine .loop hkind hlist.speaks (hlist.fits.tokens_append hhead (.inr (startsApart_loopHead target _)))
    hgaps.lines ?_ ?_ hnest
  · intro hchildren
    rw [hnone hchildren]
    rfl
  · exact fun t ht => (hbody t ht).lines

end Lays

/-! ### Sheets -/

/-- A sheet that leads from a level and some open brackets to others. Its text may call, beside the
helpers it is counted as using, some that are counted elsewhere. -/
structure Sheet.Leads (Q : List String → Prop) (target : SourceTarget)
    (elsewhere : List Helper) (m n : Nat) (p q : List Char) (sheet : Sheet) : Prop where
  closed : Closed target sheet.uses
  lays : Lays Q target (elsewhere ++ sheet.uses) m n p q [] sheet.directives

/-- A sheet of an element that closes what it opens. -/
def Sheet.Sound (target : SourceTarget) (depth : Nat) (e : Element)
    (elsewhere : List Helper) (sheet : Sheet) : Prop :=
  sheet.Leads (Emits target depth e) target elsewhere 0 0 [] []

namespace Sheet

variable {Q : List String → Prop} {target : SourceTarget} {depth : Nat}
  {e : Element} {elsewhere : List Helper} {k m n : Nat} {p q r : List Char} {a b : Sheet}
  {ds : List Directive}

theorem Leads.imp (h : a.Leads Q target elsewhere m n p q) (himp : ∀ ls, Q ls → Q' ls) :
    a.Leads Q' target elsewhere m n p q :=
  ⟨h.closed, h.lays.imp himp⟩

theorem Leads.append [Gathers Q] (ha : a.Leads Q target elsewhere k m p q)
    (hb : b.Leads Q target elsewhere m n q r) :
    (a ++ b).Leads Q target elsewhere k n p r := by
  refine ⟨ha.closed.append hb.closed, ?_⟩
  refine (ha.lays.mono ?_).append (hb.lays.mono ?_)
  · exact append_subset.mpr ⟨List.subset_append_left _ _,
      fun g hg => mem_append_right _ (mem_append_left _ hg)⟩
  · exact append_subset.mpr ⟨List.subset_append_left _ _,
      fun g hg => mem_append_right _ (mem_append_right _ hg)⟩

variable {own : List Helper}

/-- Directives that are counted as using some helpers, under whatever others there are. -/
theorem leads_of_lays (hclosed : Closed target own)
    (h : ∀ uses, elsewhere ⊆ uses → own ⊆ uses → Lays Q target uses m n p q [] ds) :
    (Sheet.mk ds own).Leads Q target elsewhere m n p q :=
  ⟨hclosed, h _ (List.subset_append_left _ _) (subset_append_right _ _)⟩

theorem leads_plain (h : Lays Q target elsewhere m n p q [] ds) :
    (Sheet.plain ds).Leads Q target elsewhere m n p q :=
  ⟨Language.closed_nil _ _, h.mono (List.subset_append_left _ _)⟩

theorem leads_nil [Gathers Q] (m : Nat) (p : List Char) :
    (Sheet.plain []).Leads Q target elsewhere m m p p :=
  leads_plain (.nil m p)

theorem Leads.mono (h : a.Leads Q target elsewhere m n p q) {elsewhere' : List Helper}
    (hsub : elsewhere ⊆ elsewhere') : a.Leads Q target elsewhere' m n p q := by
  refine ⟨h.closed, h.lays.mono ?_⟩
  exact append_subset.mpr
    ⟨Subset.trans hsub (List.subset_append_left _ _), subset_append_right _ _⟩

theorem Leads.frame (h : a.Leads Q target elsewhere m n p q) (k : Nat) (st : List Char) :
    a.Leads Q target elsewhere (m + k) (n + k) (p ++ st) (q ++ st) :=
  ⟨h.closed, h.lays.frame k st⟩

/-- A sound sheet leaves any level and any open brackets as they are. -/
theorem Sound.leads (h : a.Sound target depth e []) (elsewhere : List Helper) (m : Nat)
    (p : List Char) : a.Leads (Emits target depth e) target elsewhere m m p p := by
  have hframe := Leads.frame h m p
  rw [Nat.zero_add, List.nil_append] at hframe
  exact hframe.mono (List.nil_subset _)

/-- A sheet of a child is one of its parent, unless that is a loop. -/
theorem Sound.child {c : Element} (h : a.Sound target depth c elsewhere)
    (hkind : e.kind ≠ .forEach) (hc : c ∈ e.children) :
    a.Sound target depth e elsewhere :=
  Leads.imp h fun _ => .child hkind hc

/-- A sheet with some of the helpers that are counted elsewhere added to it. -/
theorem Sound.calling (h : a.Sound target depth e (elsewhere ++ own)) (hclosed : Closed target own) :
    (Sheet.calling own ++ a).Sound target depth e elsewhere := by
  have hlays := h.lays
  rw [List.append_assoc] at hlays
  exact ⟨hclosed.append h.closed, hlays⟩

theorem leads_leave (m : Nat) (st : List Char) :
    (Sheet.plain [.leave "\x7d"]).Leads (Emits target depth e) target elsewhere (m + 1) m
      ('\x7d' :: st) st := by
  have hbrace : Piece false (scopeOf target depth e) elsewhere ['\x7d'] [] "\x7d" :=
    piece_constant (by decide)
  exact leads_plain (Lays.text rfl rfl (hbrace.frame st)).emits

/-- The `else` between two branches. -/
theorem lays_else : Lays (Emits target depth e) target elsewhere 1 1 ['\x7d'] ['\x7d'] []
    [.reenter "\x7d else \x7b"] := by
  have helse : Piece false (scopeOf target depth e) elsewhere ['\x7d'] ['\x7d'] "\x7d else \x7b" :=
    piece_constant (by decide)
  exact (Lays.text rfl rfl helse).emits

theorem sound_loop {before : List Directive} {template : Sheet} (hkind : e.kind = .forEach)
    (hclosed : Closed target own) (hbefore : ∀ uses, elsewhere ⊆ uses → own ⊆ uses →
      Lays (Says (scopeOf target depth e)) target uses 0 1 [] ['\x7d'] [] before)
    (hlist : ∀ uses, own ⊆ uses →
      Piece false (scopeOf target depth e) uses [] (listBrackets target) list)
    (hgaps : ∀ uses, elsewhere ⊆ uses →
      Lays (Says ((scopeOf target depth e).counting (depth + 1))) target uses 0 0 [] [] [] gaps)
    (hnone : e.children = [] → template = .plain [])
    (htemplate : ∀ t, e.children.head? = some t → template.Sound target (depth + 1) t []) :
    (Sheet.mk (before ++ [.enter (list ++ loopHead target (depth + 1))] ++ gaps) own ++ template ++
      .plain [.leave "\x7d", .leave "\x7d"]).Sound target depth e elsewhere := by
  have hinner : Closed target template.uses := by
    cases hchildren : e.children with
    | nil =>
      rw [hnone hchildren]
      exact Language.closed_nil _ _
    | cons t rest => exact (htemplate t (by rw [hchildren]; rfl)).closed
  refine ⟨(hclosed.append hinner).append (Language.closed_nil _ _), ?_⟩
  have hlays (uses : List Helper) (helsewhere : elsewhere ⊆ uses) (hown : own ++ template.uses ⊆ uses) :
      Lays (Emits target depth e) target uses 0 0 [] [] []
        (before ++ [.enter (list ++ loopHead target (depth + 1))] ++ gaps ++ template.directives ++
          [.leave "\x7d", .leave "\x7d"]) := by
    obtain ⟨hown, htemplateUses⟩ := append_subset.mp hown
    have hblock := Lays.loop hkind (hlist uses hown) (hgaps uses helsewhere)
      (fun h => congrArg Sheet.directives (hnone h))
      fun t ht => (htemplate t ht).lays.mono htemplateUses
    have hbrace : Piece false (scopeOf target depth e) uses ['\x7d'] [] "\x7d" :=
      piece_constant (by decide)
    have hclose : Lays (Emits target depth e) target uses 1 0 ['\x7d'] [] [] [.leave "\x7d"] :=
      (Lays.text rfl rfl hbrace).emits
    have hall := ((hbefore uses helsewhere hown).emits.append (hblock.frame 1 ['\x7d'])).append hclose
    simpa only [List.append_assoc, List.cons_append, List.nil_append] using hall
  refine hlays _ (List.subset_append_left _ _) ?_
  exact List.subset_append_of_subset_right _ (List.subset_append_left _ _)

end Sheet

/-! ### Values of properties -/

section

variable {target : SourceTarget} {scope : Scope} {uses : List Helper}

/-- Code that is sound if there is any. -/
def SoundOption (target : SourceTarget) (scope : Scope) (c : Option Code) : Prop :=
  ∀ code, c = some code → code.Sound (language target) (has target) scope

theorem yields_propertyCode (target : SourceTarget) (env : Env) (depth : Nat) (e : Element)
    (p : Property) (type : ValueType) :
    Yields (SoundOption target (scopeOf target depth e))
      (propertyCode (language target) env (itemVariable depth) e p type) := by
  unfold propertyCode
  cases hv : e.get? p with
  | none => exact nofun
  | some v =>
    refine (Elaboration.yields_property env type _ v).bind ?_
    rintro t ⟨htyped, -⟩ code heq
    rw [← Option.some.inj heq]
    refine Language.sound_term_of_subset (spelled_language target) t ?_
    exact Language.lookups_subset _ depth
      (Subset.trans htyped.bindings_subset (bindings_subset_ownBindings hv))

variable {c : Option Code} {mods : List (Modifier Code)} {p : Property}

theorem SoundOption.operand (h : SoundOption target scope c) {fallback : String}
    (hfallback : Operand scope [] fallback) :
    Operand scope (usesOf c) ((c.map Code.text).getD fallback) := by
  cases c with
  | none => exact hfallback
  | some code => exact (h code rfl).operand

theorem SoundOption.closed (h : SoundOption target scope c) : Closed target (usesOf c) := by
  cases c with
  | none => exact Language.closed_nil _ _
  | some code => exact (h code rfl).closed

theorem sound_itemsCode (target : SourceTarget) (depth : Nat) (e : Element) :
    (itemsCode (language target) (itemVariable depth) e).Sound (language target) (has target)
      (scopeOf target depth e) := by
  unfold itemsCode
  split
  · rename_i b hb
    refine Language.sound_lookup (spelled_language target) fun s hs => ?_
    exact mem_filterMap.mpr ⟨b, bindings_subset_ownBindings hb mem_cons_self, hs⟩
  · exact Language.sound_plain ((spelled_language target).nothing _ [])

/-! ### Modifiers -/

def SoundValue (target : SourceTarget) (scope : Scope) : ModifierValue Code → Prop
  | .native s => Operand scope [] s
  | .flag => True
  | .computed c => c.Sound (language target) (has target) scope

def SoundModifiers (target : SourceTarget) (scope : Scope) (mods : List (Modifier Code)) : Prop :=
  ∀ m ∈ mods, SoundValue target scope m.value

theorem exists_of_get? {v : ModifierValue Code} (h : Modifier.get? mods p = some v) :
    ∃ m ∈ mods, m.value = v := by
  obtain ⟨m, hm, hv⟩ := Option.map_eq_some_iff.mp h
  exact ⟨m, mem_of_find?_eq_some hm, hv⟩

section

variable (hmods : SoundModifiers target scope mods)

include hmods

theorem SoundModifiers.operand_native? (h : Modifier.native? mods p = some s) :
    Operand scope uses s := by
  unfold Modifier.native? at h
  split at h
  · rename_i t hget
    obtain ⟨m, hm, hv⟩ := exists_of_get? hget
    have hsound := hmods m hm
    rw [hv] at hsound
    rw [← Option.some.inj h]
    exact Operand.mono hsound (List.nil_subset _)
  · cases h

theorem SoundModifiers.sound_computed? {c : Code} (h : Modifier.computed? mods p = some c) :
    c.Sound (language target) (has target) scope ∧ c.uses ⊆ modifierUses mods := by
  unfold Modifier.computed? at h
  split at h
  · rename_i d hget
    obtain ⟨m, hm, hv⟩ := exists_of_get? hget
    obtain rfl := Option.some.inj h
    have hsound := hmods m hm
    rw [hv] at hsound
    refine ⟨hsound, ?_⟩
    intro g hg
    exact mem_flatMap.mpr ⟨m, hm, by rw [hv]; exact hg⟩
  · cases h

theorem SoundModifiers.operand_computedText? (h : computedText? mods p = some s) :
    Operand scope (modifierUses mods) s := by
  obtain ⟨c, hc, rfl⟩ := Option.map_eq_some_iff.mp h
  obtain ⟨hsound, hsub⟩ := hmods.sound_computed? hc
  exact hsound.operand.mono hsub

theorem SoundModifiers.closed :
    Closed target (modifierUses mods) := by
  refine Language.closed_flatMap ?_
  intro m hm
  have hsound := hmods m hm
  split
  · rename_i c hv
    rw [hv] at hsound
    exact hsound.closed
  · exact Language.closed_nil _ _

end

end

/-! ### Native constants -/

section

variable {scope : Scope} {uses : List Helper} {target : SourceTarget} {s : String} {a : Alignment}
  {env : Env}

theorem operand_alignment? {axis : Axis}
    (h : Style.builtin.alignment? target.platform axis a = some s) : Operand scope uses s := by
  cases target <;> cases axis <;> cases a <;>
    (rw [← Option.some.inj h]; exact piece_constant (by decide))

theorem operand_textAlign? (h : Style.builtin.textAlign? target.platform a = some s) :
    Operand scope uses s := by
  cases target <;> cases a <;> (rw [← Option.some.inj h]; exact piece_constant (by decide))

theorem operand_fontWeight? {w : FontWeight}
    (h : Style.builtin.fontWeight? target.platform w = some s) : Operand scope uses s := by
  cases target <;> cases w <;> (rw [← Option.some.inj h]; exact piece_constant (by decide))

/-- A value that is a native constant that is an operand, or a term over given bindings. -/
def SoundNative (scope : Scope) (known : List Binding) : ModifierValue Term → Prop
  | .native s => Operand scope [] s
  | .flag => True
  | .computed t => t.bindings ⊆ known

theorem SoundNative.mono {x : ModifierValue Term} {known known' : List Binding}
    (h : SoundNative scope known x) (hsub : known ⊆ known') : SoundNative scope known' x := by
  cases x with
  | native s => exact h
  | flag => exact trivial
  | computed t => exact Subset.trans h hsub

theorem yields_alignment {place : Location} {v : PropertyValue}
    {constant? : Alignment → Option String}
    (hconstant : ∀ a s, constant? a = some s → Operand scope [] s) :
    Yields (SoundNative scope v.bindings) (Modifier.alignment env place v constant?) := by
  unfold Modifier.alignment
  simp only
  split
  · rename_i s hs
    obtain ⟨a, -, ha⟩ := Option.bind_eq_some_iff.mp hs
    exact hconstant a s ha
  · exact yields_error _ _

theorem yields_bindings (env : Env) (type : ValueType) (place : Location) (v : PropertyValue) :
    Yields (fun t => t.bindings ⊆ v.bindings) (Elaboration.property env type place v) :=
  Meets.imp (Elaboration.yields_property env type place v) fun _ ht => ht.1.bindings_subset

section

variable (hstyle : env.style = .builtin) (hplatform : env.platform = target.platform)

include hstyle hplatform

theorem yields_fontWeight (place : Location) (v : PropertyValue) :
    Yields (SoundNative scope v.bindings) (Modifier.fontWeight env place v) := by
  have hweight (w : FontWeight) :
      Yields (SoundNative scope v.bindings) (Modifier.weight env place w) := by
    unfold Modifier.weight
    split
    · rename_i s hs
      rw [hstyle, hplatform] at hs
      exact operand_fontWeight? hs
    · exact yields_error _ _
  unfold Modifier.fontWeight
  split
  · exact hweight _
  · split
    · exact hweight _
    · exact yields_error _ _
  · exact Meets.map (yields_bindings env .any place v) fun _ h => h

theorem yields_value? (scope : Scope) (place : Location) (p : Property) (v : PropertyValue) :
    Yields (fun value => ∀ x, value = some x → SoundNative scope v.bindings x)
      (Modifier.value? env place p v) := by
  have hsome {x : Except Error (ModifierValue Term)}
      (hx : Yields (SoundNative scope v.bindings) x) :
      Yields (fun value => ∀ y, value = some y → SoundNative scope v.bindings y) (x.map some) := by
    refine Meets.map hx ?_
    rintro a ha y hy
    rwa [← Option.some.inj hy]
  have hcomputed (type : ValueType) :
      Yields (fun value => ∀ y, value = some y → SoundNative scope v.bindings y)
        ((Elaboration.property env type place v).map fun t => some (.computed t)) := by
    refine Meets.map (yields_bindings env type place v) ?_
    rintro t ht y hy
    rwa [← Option.some.inj hy]
  have halignment (axis : Axis) : ∀ a s, env.style.alignment? env.platform axis a = some s →
      Operand scope [] s := by
    intro a s h
    rw [hstyle, hplatform] at h
    exact operand_alignment? h
  have htextAlign : ∀ a s, env.style.textAlign? env.platform a = some s → Operand scope [] s := by
    intro a s h
    rw [hstyle, hplatform] at h
    exact operand_textAlign? h
  unfold Modifier.value?
  split
  iterate 2
    · intro x hx
      split at hx
      · rw [← Option.some.inj hx]
        exact trivial
      · cases hx
  · split
    · exact nofun
    · exact hcomputed _
  · exact hsome (yields_alignment (halignment .horizontal))
  · exact hsome (yields_alignment (halignment .vertical))
  · exact hsome (yields_alignment htextAlign)
  · exact hsome (yields_fontWeight hstyle hplatform place v)
  · exact hcomputed _

theorem yields_buildFrom (scope : Scope) (e : Element) (ps : List Property) :
    Yields (fun mods => ∀ m ∈ mods, SoundNative scope (ownBindings e) m.value)
      (Modifier.buildFrom env e ps) := by
  induction ps with
  | nil => exact nofun
  | cons p ps ih =>
    rw [Modifier.buildFrom]
    split
    · exact ih
    · rename_i v hv
      refine (yields_value? hstyle hplatform scope _ p v).bind ?_
      intro value hvalue
      refine ih.bind ?_
      intro rest hrest m hm
      rcases mem_append.mp hm with hm | hm
      · obtain ⟨x, hx, rfl⟩ := Option.map_eq_some_iff.mp (Option.mem_toList.mp hm)
        exact (hvalue x hx).mono (bindings_subset_ownBindings hv)
      · exact hrest m hm

end

/-- The modifiers of an element under the built-in style. -/
theorem yields_modifierCodes (target : SourceTarget) (hstyle : env.style = .builtin)
    (hplatform : env.platform = target.platform) (depth : Nat) (e : Element) :
    Yields (SoundModifiers target (scopeOf target depth e))
      (modifierCodes (language target) env (itemVariable depth) e) := by
  refine (yields_buildFrom hstyle hplatform (scopeOf target depth e) e _).bind ?_
  intro mods hmods m hm
  obtain ⟨n, hn, rfl⟩ := mem_map.mp hm
  have hnative := hmods n hn
  unfold Modifier.map
  cases hvalue : n.value with
  | native s =>
    rw [hvalue] at hnative
    exact hnative
  | flag => exact trivial
  | computed t =>
    rw [hvalue] at hnative
    exact Language.sound_term_of_subset (spelled_language target) t
      (Language.lookups_subset _ depth hnative)

end

/-! ### Elements -/

/-- What is known of the sheet of the children that an element shows: that of the template of a loop is
sound, others lead wherever what stands between two of them does. -/
structure Sheet.Fills (target : SourceTarget) (depth : Nat) (e : Element) (between : List Directive)
    (body : Sheet) : Prop where
  template : e.kind = .forEach → (e.children = [] → body = .plain []) ∧
    ∀ t, e.children.head? = some t → body.Sound target (depth + 1) t []
  content : e.kind ≠ .forEach → ∀ elsewhere m p,
    Lays (Emits target depth e) target elsewhere m m p p [] between →
      body.Leads (Emits target depth e) target elsewhere m m p p

/-- A setting that makes a sound sheet of that of the children. -/
def Setting.Sound (target : SourceTarget) (depth : Nat) (e : Element) (elsewhere : List Helper)
    (s : Setting) : Prop :=
  ∀ body : Sheet, body.Fills target depth e s.between →
    (s.around body).Sound target depth e elsewhere

namespace Dialect

open Emission

variable {σ : Type} {D : Dialect σ} {target : SourceTarget} {Good : σ → Prop} {env : Env}

/-- A dialect of a target whose settings are sound, if elements are told something good. -/
structure Sound (D : Dialect σ) (target : SourceTarget) (Good : σ → Prop) : Prop where
  language : D.language = Source.language target
  inner : Good D.inner
  setting : ∀ {env : Env} {told : σ} {depth : Nat} {e : Element} {mods : List (Modifier Code)},
    env.style = .builtin → Good told → SoundModifiers target (scopeOf target depth e) mods →
      ∀ flow, Yields (Setting.Sound target depth e (modifierUses mods))
        (D.setting env (stackOf depth) flow told e mods)

mutual

theorem Sound.yields_element (hD : D.Sound target Good) (hstyle : env.style = .builtin)
    (hplatform : env.platform = target.platform) (depth : Nat) (flow : Flow) {told : σ}
    (htold : Good told) (e : Element) :
    Yields (Sheet.Sound target depth e []) (D.element env (stackOf depth) flow told e) := by
  cases e with
  | mk kind id properties children place =>
    rw [element, headD_stackOf, hD.language, inside_stackOf]
    refine (yields_modifierCodes target hstyle hplatform depth _).bind fun mods hmods => ?_
    refine (hD.setting hstyle htold hmods flow).bind fun s hs => ?_
    have hbody : Yields (Sheet.Fills target depth ⟨kind, id, properties, children, place⟩ s.between)
        (D.elements env (stackOf (if kind = .forEach then depth + 1 else depth)) s.flow s.between true
          (kind.showing children.length) children) := by
      split
      · rename_i hkind
        subst hkind
        cases children with
        | nil =>
          rw [Kind.showing, elements]
          exact ⟨fun _ => ⟨fun _ => rfl, nofun⟩, absurd rfl⟩
        | cons t rest =>
          rw [Kind.showing, elements_one]
          refine (hD.yields_element hstyle hplatform (depth + 1) _ hD.inner t).imp fun sheet h => ?_
          refine ⟨fun _ => ⟨nofun, fun t' ht => ?_⟩, absurd rfl⟩
          rwa [← Option.some.inj ht]
      · rename_i hkind
        exact (hD.yields_elements hstyle hplatform depth _ hkind _ true _ children
          (Subset.refl _)).imp fun body h => ⟨fun heq => absurd heq hkind, fun _ => h⟩
    exact hbody.bind fun body hbody => (hs body hbody).calling hmods.closed

theorem Sound.yields_elements (hD : D.Sound target Good) (hstyle : env.style = .builtin)
    (hplatform : env.platform = target.platform) (depth : Nat) (flow : Flow) {e : Element}
    (hkind : e.kind ≠ .forEach) (between : List Directive) (first : Bool) (n : Nat)
    (es : List Element) (hes : es ⊆ e.children) :
    Yields (fun body : Sheet => ∀ elsewhere m p,
        Lays (Emits target depth e) target elsewhere m m p p [] between →
          body.Leads (Emits target depth e) target elsewhere m m p p)
      (D.elements env (stackOf depth) flow between first n es) := by
  cases n with
  | zero =>
    rw [elements]
    exact fun _ m p _ => Sheet.leads_nil m p
  | succ n =>
    cases es with
    | nil =>
      rw [elements]
      exact fun _ m p _ => Sheet.leads_nil m p
    | cons c es =>
      obtain ⟨hc, hes⟩ := cons_subset.mp hes
      rw [elements]
      refine (hD.yields_element hstyle hplatform depth flow hD.inner c).bind fun sheet hsheet => ?_
      refine (hD.yields_elements hstyle hplatform depth flow hkind between false n es hes).bind ?_
      intro rest hrest elsewhere m p hbetween
      refine .append (.append (Sheet.leads_plain ?_) ((hsheet.child hkind hc).leads elsewhere m p))
        (hrest elsewhere m p hbetween)
      split
      · exact .nil m p
      · exact hbetween

end

end Dialect

end Widgetry.Source
