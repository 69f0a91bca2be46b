import Widgetry.Proofs.Source.Mention
import Widgetry.Proofs.Source.Sheet

/-!
# Lookups in the sheets of elements

A well formed element allows no property but those that are written for its kind. So for each binding
of an element its sheet holds a lookup, which starts from the variable of as many loops as there are
templates around the element.
-/

namespace Widgetry

open List

/-! ### Properties with bindings -/

/-- Whether a property may hold bindings. -/
def Property.carries (p : Property) : Bool :=
  match p.shape with
  | .value _ | .fontWeight | .listBinding => true
  | _ => false

variable {p : Property} {b : Binding}

theorem Property.carries_of_mem_bindings {v : PropertyValue} (hshape : v.HasShape p.shape)
    (hb : b ∈ v.bindings) : p.carries = true := by
  unfold carries
  cases hp : p.shape with
  | value type => rfl
  | fontWeight | listBinding => rfl
  | keyword =>
    rw [hp] at hshape
    obtain ⟨_, rfl⟩ := hshape
    cases hb
  | direction =>
    rw [hp] at hshape
    rcases hshape with rfl | rfl <;> cases hb
  | count | flag =>
    rw [hp] at hshape
    obtain ⟨_, rfl⟩ := hshape
    cases hb

/-! ### Modifiers -/

namespace Modifier

variable {env : Env} {e : Element} {p : Property} {ps : List Property} {v : PropertyValue}

theorem yields_property_buildFrom (env : Env) (e : Element) (ps : List Property) :
    Yields (fun mods : List (Modifier Term) => ∀ m ∈ mods, m.property ∈ ps) (buildFrom env e ps) := by
  induction ps with
  | nil => exact nofun
  | cons q ps ih =>
    rw [buildFrom]
    cases e.get? q with
    | none => exact Meets.imp ih fun mods h m hm => mem_cons_of_mem _ (h m hm)
    | some w =>
      refine (yields_true _).bind fun value _ => ih.bind fun rest hrest m hm => ?_
      rcases mem_append.mp hm with hm | hm
      · obtain ⟨x, -, rfl⟩ := Option.map_eq_some_iff.mp (Option.mem_toList.mp hm)
        exact mem_cons_self
      · exact mem_cons_of_mem _ (hrest m hm)

variable {α : Type} {mods : List (Modifier α)}

theorem get?_of_notMem (h : ∀ m ∈ mods, m.property ≠ p) : get? mods p = none := by
  have hfind : mods.find? (·.property == p) = none :=
    List.find?_eq_none.mpr fun m hm => by simpa using h m hm
  rw [get?, hfind]
  rfl

theorem get?_cons (m : Modifier α) (mods : List (Modifier α)) (p : Property) :
    get? (m :: mods) p = if m.property = p then some m.value else get? mods p := by
  unfold get?
  by_cases h : m.property = p
  · rw [List.find?_cons_of_pos (by simpa using h), if_pos h]
    rfl
  · rw [List.find?_cons_of_neg (by simpa using h), if_neg h]

theorem mem_of_get? {x : ModifierValue α} (h : get? mods p = some x) : ⟨p, x⟩ ∈ mods := by
  obtain ⟨m, hm, rfl⟩ := Option.map_eq_some_iff.mp h
  have hproperty : m.property = p := by simpa using List.find?_some hm
  rw [← hproperty]
  exact mem_of_find?_eq_some hm

theorem mem_order_of_isCommon (h : p.isCommon = true) : p ∈ order .glance := by
  cases p <;> first | decide | cases h

/-- The modifier of a property is made from the value of this property. -/
theorem exists_value_of_buildFrom (hnodup : ps.Nodup) {mods : List (Modifier Term)}
    (h : buildFrom env e ps = .ok mods) (hp : p ∈ ps) (hv : e.get? p = some v) :
    ∃ value, value? env (e.place.field p.name) p v = .ok value ∧ get? mods p = value := by
  induction ps generalizing mods with
  | nil => cases hp
  | cons q ps ih =>
    rw [nodup_cons] at hnodup
    rw [buildFrom] at h
    by_cases hq : q = p
    · subst hq
      rw [hv] at h
      obtain ⟨value, hvalue, h⟩ := exists_of_bind_eq_ok h
      obtain ⟨rest, hrest, h⟩ := exists_of_bind_eq_ok h
      refine ⟨value, hvalue, ?_⟩
      rw [← Except.ok.inj h]
      cases value with
      | none =>
        refine get?_of_notMem fun m hm heq => hnodup.1 ?_
        rw [← heq]
        exact (yields_property_buildFrom env e ps).of_ok hrest m hm
      | some x => exact (get?_cons _ _ _).trans (if_pos rfl)
    · have hp : p ∈ ps := (mem_cons.mp hp).resolve_left (Ne.symm hq)
      cases hw : e.get? q with
      | none =>
        rw [hw] at h
        exact ih hnodup.2 h hp
      | some w =>
        rw [hw] at h
        obtain ⟨other, -, h⟩ := exists_of_bind_eq_ok h
        obtain ⟨rest, hrest, h⟩ := exists_of_bind_eq_ok h
        obtain ⟨value, hvalue, hget⟩ := ih hnodup.2 hrest hp
        refine ⟨value, hvalue, ?_⟩
        rw [← Except.ok.inj h, ← hget]
        cases other with
        | none => rfl
        | some x => exact (get?_cons _ _ _).trans (if_neg hq)

theorem get?_map {β : Type} (f : α → β) (mods : List (Modifier α)) (p : Property) :
    get? (mods.map (map f)) p = (get? mods p).map (ModifierValue.map f) := by
  induction mods with
  | nil => rfl
  | cons m mods ih =>
    rw [map_cons, get?_cons, get?_cons, ih]
    show (if m.property = p then some (m.value.map f) else _) = _
    split <;> rfl

theorem exists_of_value? {place : Location} {value : Option (ModifierValue Term)}
    (h : value? env place p v = .ok value) (hcarries : p.carries = true) (hb : b ∈ v.bindings) :
    ∃ type t, Elaboration.property env type place v = .ok t ∧ value = some (.computed t) := by
  have hcomputed : ∀ type,
      ((Elaboration.property env type place v).map fun t => some (.computed t)) = .ok value →
      ∃ type t, Elaboration.property env type place v = .ok t ∧ value = some (.computed t) := by
    intro type h
    obtain ⟨t, ht, hvalue⟩ := exists_of_map_eq_ok h
    exact ⟨type, t, ht, hvalue.symm⟩
  unfold value? at h
  split at h
  · cases hcarries
  · cases hcarries
  · split at h
    · rename_i hbool
      cases v with
      | literal l => cases hb
      | _ => cases hbool
    · exact hcomputed _ h
  · cases hcarries
  · cases hcarries
  · cases hcarries
  · obtain ⟨x, hx, hvalue⟩ := exists_of_map_eq_ok h
    unfold fontWeight at hx
    split at hx
    · cases hb
    · cases hb
    · obtain ⟨t, ht, rfl⟩ := exists_of_map_eq_ok hx
      exact ⟨.any, t, ht, hvalue.symm⟩
  · exact hcomputed _ h

end Modifier

namespace Source

/-! ### Texts that are shown -/

/-- Directives one of which writes a text that holds another one. -/
def Shows (s : String) (ds : List Directive) : Prop :=
  ∃ d ∈ ds, ∃ t, d.text? = some t ∧ Within s t

section

variable {s t : String} {d : Directive} {ds : List Directive}

theorem shows_of_mem (hd : d ∈ ds) (ht : d.text? = some t) (hs : Within s t) : Shows s ds :=
  ⟨d, hd, t, ht, hs⟩

theorem Shows.left (h : Shows s ds) (es : List Directive) : Shows s (ds ++ es) := by
  obtain ⟨d, hd, hshows⟩ := h
  exact ⟨d, mem_append_left _ hd, hshows⟩

theorem Shows.right (h : Shows s ds) (es : List Directive) : Shows s (es ++ ds) := by
  obtain ⟨d, hd, hshows⟩ := h
  exact ⟨d, mem_append_right _ hd, hshows⟩

end

/-! ### Bindings that are due -/

/-- An element that stands in another one under a number of templates. -/
inductive Nested : Element → Nat → Element → Prop
  | self (e : Element) : Nested e 0 e
  | child {e c x : Element} {d : Nat} (hkind : e.kind ≠ .forEach) (hc : c ∈ e.children)
      (h : Nested c d x) : Nested e d x
  | template {e t x : Element} {d : Nat} (hkind : e.kind = .forEach) (ht : t ∈ e.children)
      (h : Nested t d x) : Nested e (d + 1) x

/-- A lookup that a property of an element makes necessary inside a number of loops. -/
def Due (target : SourceTarget) (depth : Nat) (e : Element) (p : Property) (s : String) : Prop :=
  ∃ v, e.get? p = some v ∧ ∃ b ∈ v.bindings, (language target).lookup? depth b = some s

/-- Whether there is a place for the spacing of an element: Glance has it between two children. -/
def HasGaps (target : SourceTarget) (e : Element) : Prop :=
  target = .glance → e.kind ≠ .forEach → 2 ≤ e.children.length

/-- Directives that hold all lookups of an element. -/
def Held (target : SourceTarget) (depth : Nat) (e : Element) (ds : List Directive) : Prop :=
  ∀ p s, Due target depth e p s → (p = .spacing → HasGaps target e) → Shows s ds

/-- Directives that hold, for an element and for each one in it, lines of this element with all of its
lookups. -/
def Covers (target : SourceTarget) (depth : Nat) (e : Element) (ds : List Directive) : Prop :=
  ∀ d x, Nested e d x → ∃ own, own <:+: ds ∧
    Emits target (depth + d) x (own.flatMap Directive.lines) ∧ Held target (depth + d) x own

section

variable {target : SourceTarget} {depth : Nat} {e : Element} {p : Property} {s : String}
  {ds : List Directive}

theorem covers_of_held (hlines : Emits target depth e (ds.flatMap Directive.lines))
    (hown : Held target depth e ds)
    (hchildren : e.kind ≠ .forEach → ∀ c ∈ e.children, Covers target depth c ds)
    (htemplate : e.kind = .forEach → ∀ c ∈ e.children, Covers target (depth + 1) c ds) :
    Covers target depth e ds := by
  intro d x h
  cases h with
  | self => exact ⟨ds, infix_rfl, hlines, hown⟩
  | child hkind hc h => exact hchildren hkind _ hc d x h
  | @template _ _ _ d hkind ht h =>
    have hcovers := htemplate hkind _ ht d x h
    rwa [Nat.add_right_comm] at hcovers

theorem Covers.widen (h : Covers target depth e ds) {es : List Directive} (hds : ds <:+: es) :
    Covers target depth e es := by
  intro d x hx
  obtain ⟨own, hinfix, hown⟩ := h d x hx
  exact ⟨own, hinfix.trans hds, hown⟩

theorem Due.paren (h : Due target depth e p s) : '(' ∈ s.toList := by
  obtain ⟨v, -, b, -, hs⟩ := h
  obtain ⟨root, -, rfl⟩ := Option.map_eq_some_iff.mp hs
  simp [call]

end

/-! ### Code of what is due -/

variable {env : Env} {mods : List (Modifier Code)}

section

variable {target : SourceTarget} {depth : Nat} {e : Element} {p : Property} {s : String}

section

variable (h : Due target depth e p s) (hformed : e.WellFormed)

include h hformed

/-- A property with bindings is one that the kind allows. -/
theorem Due.allowed :
    e.kind.allows p = true ∧ p.carries = true := by
  obtain ⟨v, hv, b, hb, -⟩ := h
  have hmem := Table.mem_of_get? hv
  exact ⟨hformed.allowed p v hmem, Property.carries_of_mem_bindings (hformed.values p v hmem) hb⟩

theorem Due.isCommon_or_mem_own (hkind : e.kind ≠ .conditional) :
    p.isCommon = true ∨ p ∈ e.kind.own.filter Property.carries := by
  obtain ⟨hallows, hcarries⟩ := h.allowed hformed
  rw [Kind.allows, if_neg hkind, Bool.or_eq_true, contains_iff_mem] at hallows
  exact hallows.imp_right fun hown => mem_filter.mpr ⟨hown, hcarries⟩

theorem Due.of_conditional (hkind : e.kind = .conditional) : p = .condition ∨ p = .visible := by
  have hallows := (h.allowed hformed).1
  rw [Kind.allows, if_pos hkind, Bool.or_eq_true, beq_iff_eq, beq_iff_eq] at hallows
  exact hallows

end

theorem mentions_language (target : SourceTarget) : (language target).Mentions := by
  cases target with
  | glance => exact Kotlin.mentions_language
  | swiftUI => exact Swift.mentions_language

/-- The code of a property holds the lookups that are due for it. -/
theorem Due.code (h : Due target depth e p s) {type : ValueType} {c : Option Code}
    (hcode : propertyCode (language target) env (itemVariable depth) e p type = .ok c) :
    ∃ code, c = some code ∧ Within s code.text := by
  obtain ⟨v, hv, b, hb, hs⟩ := h
  unfold propertyCode at hcode
  rw [hv] at hcode
  obtain ⟨t, ht, hc⟩ := exists_of_bind_eq_ok hcode
  exact ⟨_, (Except.ok.inj hc).symm, Language.within_property (mentions_language target) ht hb hs⟩

theorem Due.items (h : Due target depth e .items s) (hformed : e.WellFormed) :
    (itemsCode (language target) (itemVariable depth) e).text = s := by
  obtain ⟨v, hv, b, hb, hs⟩ := h
  obtain ⟨b', rfl, -⟩ := hformed.values .items v (Table.mem_of_get? hv)
  rw [mem_singleton.mp hb] at hs
  unfold itemsCode
  rw [hv]
  exact Language.text_lookup hs

end

theorem computedText?_of_get? {c : Code} (h : Modifier.get? mods p = some (.computed c)) :
    computedText? mods p = some c.text := by
  rw [computedText?, Modifier.computed?, h]
  rfl

/-- The modifier of a property holds the lookups that are due for it. -/
theorem Due.computed {target : SourceTarget} {depth : Nat} {e : Element} {s : String}
    (h : Due target depth e p s) (hformed : e.WellFormed) (hp : p ∈ Modifier.order .glance)
    (hmods : modifierCodes (language target) env (itemVariable depth) e = .ok mods) :
    ∃ c, Modifier.get? mods p = some (.computed c) ∧ Within s c.text := by
  have hcarries := (h.allowed hformed).2
  obtain ⟨v, hv, b, hb, hs⟩ := h
  obtain ⟨terms, hterms, heq⟩ := exists_of_bind_eq_ok hmods
  have hnodup : (Modifier.order env.platform).Nodup := by cases env.platform <;> decide
  obtain ⟨value, hvalue, hget⟩ := Modifier.exists_value_of_buildFrom hnodup hterms
    (Modifier.order_subset _ _ hp) hv
  obtain ⟨type, t, ht, rfl⟩ := Modifier.exists_of_value? hvalue hcarries hb
  refine ⟨(language target).term (itemVariable depth) t, ?_,
    Language.within_property (mentions_language target) ht hb hs⟩
  rw [← Except.ok.inj heq, Modifier.get?_map, hget]
  rfl

/-! ### Elements -/

/-- A setting that keeps the sheet of the children and holds all lookups of the element, some of them
perhaps between two children. -/
structure Setting.Holds (target : SourceTarget) (depth : Nat) (e : Element) (s : Setting) : Prop where
  keeps : e.children ≠ [] → ∀ body, body.directives <:+: (s.around body).directives
  held : ∀ body : Sheet, (2 ≤ e.children.length → ∀ t, Shows t s.between → Shows t body.directives) →
    Held target depth e (s.around body).directives

namespace Dialect

open Emission

variable {σ : Type} {D : Dialect σ} {target : SourceTarget} {depth : Nat} {e : Element} {flow : Flow}
  {sheet : Sheet}

/-- A dialect whose settings hold all lookups of well formed elements. -/
def Holds (D : Dialect σ) (target : SourceTarget) : Prop :=
  ∀ {env depth flow told e mods s}, e.WellFormed →
    modifierCodes (Source.language target) env (itemVariable depth) e = .ok mods →
    D.setting env (stackOf depth) flow told e mods = .ok s → s.Holds target depth e

/-- Children whose sheets hold all their lookups, and what stands between them. -/
theorem covers_of_elements {between : List Directive} {first : Bool} {n : Nat} {es : List Element}
    {stack : List String} (hes : ∀ c ∈ es, ∀ sheet, D.element env stack flow D.inner c = .ok sheet →
      Covers target depth c sheet.directives) (hn : es.length ≤ n)
    (h : D.elements env stack flow between first n es = .ok sheet) :
    (∀ c ∈ es, Covers target depth c sheet.directives) ∧
      ((first = false ∧ es ≠ []) ∨ 2 ≤ es.length → ∀ t, Shows t between →
        Shows t sheet.directives) := by
  induction es generalizing first n sheet with
  | nil => exact ⟨nofun, by simp⟩
  | cons c es ih =>
    obtain ⟨hc, hes⟩ := forall_mem_cons.mp hes
    obtain ⟨n, rfl⟩ : ∃ k, n = k + 1 := Nat.exists_eq_add_one.mpr (Nat.zero_lt_of_lt hn)
    rw [elements] at h
    obtain ⟨one, hone, h⟩ := exists_of_bind_eq_ok h
    obtain ⟨rest, hrest, h⟩ := exists_of_bind_eq_ok h
    rw [← Except.ok.inj h]
    obtain ⟨hchildren, hgaps⟩ := ih hes (Nat.le_of_succ_le_succ hn) hrest
    refine ⟨forall_mem_cons.mpr ⟨(hc _ hone).widen (infix_append _ _ _),
      fun c hc => (hchildren c hc).widen (suffix_append _ _).isInfix⟩, fun hmany t ht => ?_⟩
    cases first with
    | false => exact (ht.left _).left _
    | true =>
      have hne : es ≠ [] := by
        rintro rfl
        simp at hmany
      exact (hgaps (.inl ⟨rfl, hne⟩) t ht).right _

/-- The sheet of a well formed element holds all lookups of the element and of those in it. -/
theorem Holds.covers_of_element {Good : σ → Prop} {told : σ} (h : D.Holds target)
    (hD : D.Sound target Good) (hstyle : env.style = .builtin)
    (hplatform : env.platform = target.platform) (htold : Good told)
    (hformed : ∀ x ∈ e.walk, x.WellFormed)
    (hsheet : D.element env (stackOf depth) flow told e = .ok sheet) :
    Covers target depth e sheet.directives := by
  induction e using Element.inductionOn generalizing depth flow told sheet with
  | step e ih =>
    have hlines := ((hD.yields_element hstyle hplatform depth flow htold e).of_ok hsheet).lays.lines
    obtain ⟨hself, hbelow⟩ := Element.forall_mem_walk.mp hformed
    have hcount := hself.length_le_showing
    obtain ⟨kind, id, properties, children, place⟩ := e
    rw [element, headD_stackOf, hD.language, inside_stackOf] at hsheet
    obtain ⟨mods, hmods, hsheet⟩ := exists_of_bind_eq_ok hsheet
    obtain ⟨s, hs, hsheet⟩ := exists_of_bind_eq_ok hsheet
    obtain ⟨body, hbody, hsheet⟩ := exists_of_bind_eq_ok hsheet
    obtain rfl := Except.ok.inj hsheet
    obtain ⟨hkeeps, hheld⟩ := h hself hmods hs
    obtain ⟨hchildren, hgaps⟩ := covers_of_elements
      (fun c hc _ => ih c hc hD.inner (hbelow c hc)) hcount hbody
    have hcovers := fun c hc => (hchildren c hc).widen (hkeeps (ne_nil_of_mem hc) body)
    refine covers_of_held hlines (hheld body fun hmany => hgaps (.inr hmany)) ?_ ?_
    · intro hkind
      rwa [if_neg hkind] at hcovers
    · intro hkind
      rwa [if_pos hkind] at hcovers

end Dialect

end Source

end Widgetry
