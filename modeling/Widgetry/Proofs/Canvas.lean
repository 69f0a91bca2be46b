import Widgetry.Proofs.Source.Failure
import Widgetry.Proofs.View.Acceptance

/-!
# Bindings to the canvas

A binding to the canvas should name its width or its height. Paths and operands are checked for this
when a layout is read, the placeholders of templates are not. A layout with a stray placeholder is
read, but no source is generated for it; without one, nothing fails for such a binding.
-/

namespace Widgetry

open List

variable {place : Location} {parts : List TemplatePart} {b : Binding} {p : Property} {env : Env}

namespace PropertyValue

theorem mem_bindings_ofTemplate :
    b ∈ (ofTemplate place parts).bindings ↔ .placeholder b ∈ parts := by
  unfold ofTemplate
  split
  · simp [bindings]
  · simp only [bindings, Expr.bindings, Expr.mem_bindingsOf, mem_map]
    constructor
    · rintro ⟨e, ⟨part, hpart, rfl⟩, hb⟩
      cases part with
      | text s => simp [Expr.bindings] at hb
      | placeholder b' =>
        simp only [Expr.bindings, Expr.bindingsOf, append_nil, mem_singleton] at hb
        rwa [hb]
    · intro hb
      exact ⟨_, ⟨_, hb, rfl⟩, by simp [Expr.bindings, Expr.bindingsOf]⟩

/-- The bindings of a value are checked, unless it is that of a template. -/
def Checked (p : Property) (v : PropertyValue) : Prop :=
  (∀ b ∈ v.bindings, b.isStraySize = false) ∨
    (p = .text ∨ p = .src) ∧ ∃ place parts, v = ofTemplate place parts

theorem isStraySize_of_ne_size (h : b.scope ≠ .size) : b.isStraySize = false := by
  simp [Binding.isStraySize, h]

theorem text_of_shape (h : p.shape = .value .string) : p = .text ∨ p = .src := by
  cases p <;> first | (cases h; done) | simp

theorem ensured_checked : Element.Ensured Checked := by
  intro p place v
  refine (yields_self _).imp fun value h => ?_
  obtain ⟨type, htype, h⟩ | ⟨b, rfl, hscope⟩ | ⟨l, rfl⟩ := cases_of_read h
  · obtain ⟨l, -, rfl⟩ | ⟨s, -, ⟨key, rfl⟩ | ⟨b, hb, rfl⟩ | ⟨hstring, parts, -, rfl⟩⟩ |
      ⟨items, e, -, he, rfl⟩ := cases_of_readValue h
    · exact .inl (forall_mem_nil _)
    · exact .inl (forall_mem_singleton.mpr rfl)
    · exact .inl (forall_mem_singleton.mpr hb)
    · exact .inr ⟨text_of_shape (htype hstring), place, parts, rfl⟩
    · exact .inl fun b hb => ((Expr.relocate_of_read he).2 b hb).1
  · refine .inl (forall_mem_singleton.mpr (isStraySize_of_ne_size ?_))
    rcases hscope with h | h <;> simp [h]
  · exact .inl (forall_mem_nil _)

end PropertyValue

namespace Elaboration

theorem not_succeeds_get (h : b.isStraySize = true) (want : Option ValueType) (nullable : Bool)
    (place : Location) (fallback : Option Literal) :
    ¬Succeeds (get env want nullable place b fallback) := by
  simp only [Binding.isStraySize, Bool.and_eq_true, beq_iff_eq, Option.isNone_iff_eq_none] at h
  rw [get, if_pos h.1, h.2]
  nofun

/-- The operands of an operator that takes each of them at some type must all have terms. -/
theorem exists_succeeds_of_operands {modeAt : Nat → Mode}
    (hmode : ∀ i, (∃ type, modeAt i = .expect type) ∨ ∃ want, modeAt i = .offer want) {i : Nat}
    {es : List Expr} (h : Succeeds (operands env modeAt i es)) :
    ∀ e ∈ es, ∃ want, Succeeds (expr env want e) := by
  induction es generalizing i with
  | nil => exact forall_mem_nil _
  | cons e es ih =>
    rw [operands] at h
    obtain ⟨ts, hts⟩ := h
    rcases hmode i with ⟨type, hi⟩ | ⟨want, hi⟩
    · rw [hi] at hts
      obtain ⟨t, ht, hts⟩ := exists_of_bind_eq_ok hts
      obtain ⟨u, -, hts⟩ := exists_of_bind_eq_ok hts
      obtain ⟨us, hus, -⟩ := exists_of_bind_eq_ok hts
      exact forall_mem_cons.mpr ⟨⟨_, t, ht⟩, ih ⟨us, hus⟩⟩
    · rw [hi] at hts
      obtain ⟨t, ht, hts⟩ := exists_of_bind_eq_ok hts
      obtain ⟨us, hus, -⟩ := exists_of_bind_eq_ok hts
      exact forall_mem_cons.mpr ⟨⟨_, t, ht⟩, ih ⟨us, hus⟩⟩

theorem exists_succeeds_operands {want : Option ValueType} {op : Operator} (hop : op ≠ .themeColor)
    {args : List Expr} (h : Succeeds (expr env want (.op place op args))) :
    ∃ label, Succeeds (operands env (mode op want label args.length) 0 args) := by
  obtain ⟨t, ht⟩ := h
  rw [expr, if_neg hop] at ht
  split at ht
  · cases ht
  · obtain ⟨label, -, ht⟩ := exists_of_bind_eq_ok ht
    obtain ⟨ts, hts, -⟩ := exists_of_bind_eq_ok ht
    exact ⟨label, ts, hts⟩

/-- A template with a stray placeholder has no term. -/
theorem not_succeeds_ofTemplate {place' : Location} (hb : .placeholder b ∈ parts)
    (hstray : b.isStraySize = true) (env : Env) (expected : ValueType) (place : Location) :
    ¬Succeeds (property env expected place (.ofTemplate place' parts)) := by
  have hnone (want : Option ValueType) : ¬Succeeds (expr env want (.get place' b none)) := by
    rw [expr]
    exact not_succeeds_get hstray _ _ _ _
  rintro ⟨t, ht⟩
  unfold PropertyValue.ofTemplate at ht
  split at ht
  · obtain rfl : b = _ := by simpa using hb
    obtain ⟨u, hu, -⟩ := exists_of_bind_eq_ok (x := get env (some expected) false place b none) ht
    exact not_succeeds_get hstray _ _ _ _ ⟨u, hu⟩
  · obtain ⟨u, hu, -⟩ := exists_of_bind_eq_ok (x := expr env (some expected) _) ht
    obtain ⟨label, hargs⟩ := exists_succeeds_operands (by decide : Operator.concat ≠ .themeColor) ⟨u, hu⟩
    have hall := exists_succeeds_of_operands (fun i => .inl ⟨.string, rfl⟩) hargs
    obtain ⟨want, hpart⟩ := hall _ (mem_map.mpr ⟨_, hb, rfl⟩)
    obtain ⟨label', hget⟩ := exists_succeeds_operands (by decide : Operator.toString ≠ .themeColor) hpart
    have hread := exists_succeeds_of_operands (fun i => .inr ⟨none, rfl⟩) hget
    obtain ⟨want', hstray⟩ := hread _ (mem_singleton_self _)
    exact hnone want' hstray

end Elaboration

/-! ### Elements that are all shown -/

namespace Element

variable {x : Element}

/-- With as many children as its kind has, an element may show all of them. -/
theorem shown_eq_children (h : x.kind.admitsChildren x.children.length = true) :
    x.shown = x.children := by
  unfold shown
  cases hkind : x.kind with
  | column | row | stack | scrollView => rfl
  | label | image | spacer | divider =>
    rw [hkind] at h
    exact (eq_nil_of_length_eq_zero (beq_iff_eq.mp h)).symm
  | forEach =>
    rw [hkind] at h
    exact take_of_length_le (Nat.le_of_eq (beq_iff_eq.mp h))
  | conditional =>
    rw [hkind] at h
    simp only [Kind.admitsChildren, Bool.or_eq_true, beq_iff_eq] at h
    exact take_of_length_le (by omega)

theorem accepts_of_mem_walk {P : Property → PropertyValue → Prop} (hx : x.Sound P)
    (h : env.Accepts x) : ∀ d ∈ x.walk, env.Accepts d := by
  induction h with
  | intro style contents shown ih =>
    obtain ⟨hformed, hchildren⟩ := forall_mem_walk.mp hx
    rw [shown_eq_children hformed.children] at shown ih
    exact forall_mem_walk.mpr ⟨.intro style contents (by rwa [shown_eq_children hformed.children]),
      fun c hc => ih c hc (hchildren c hc)⟩

/-- The texts of labels and the sources of images are read with the element. -/
theorem mem_contents_of_allows {k : Kind} (hp : p = .text ∨ p = .src) (h : k.allows p = true) :
    (p, .string) ∈ k.contents := by
  rcases hp with rfl | rfl <;> cases k <;> first | (cases h; done) | simp [Kind.contents]

theorem not_accepts_of_stray {d : Element} {v : PropertyValue} (hx : x.Sound PropertyValue.Checked)
    (hd : d ∈ x.walk) (hv : (p, v) ∈ d.properties) (hb : b ∈ v.bindings)
    (hstray : b.isStraySize = true) : ¬env.Accepts x := by
  intro h
  have hformed := hx d hd
  obtain ⟨-, hreads, -⟩ := Env.accepts_iff.mp (accepts_of_mem_walk hx h d hd)
  rcases hformed.values p v hv with hchecked | ⟨hp, place, parts, rfl⟩
  · rw [hchecked b hb] at hstray
    cases hstray
  · have hcontents := mem_contents_of_allows hp (hformed.allowed p _ hv)
    exact Elaboration.not_succeeds_ofTemplate (PropertyValue.mem_bindings_ofTemplate.mp hb) hstray
      env _ _ (hreads _ hcontents _ (hformed.sorted.get?_of_mem hv))

end Element

namespace Layout

/-- A binding to the canvas that names no axis and occurs somewhere in a layout. -/
def Strays (l : Layout) (b : Binding) : Prop :=
  ∃ d ∈ l.root.walk, ∃ f ∈ d.properties, b ∈ f.2.bindings ∧ b.isStraySize = true

theorem straysMeet_strays (l : Layout) : l.root.StraysMeet l.Strays :=
  fun d hd f hf _ hb hstray => ⟨d, hd, f, hf, hb, hstray⟩

theorem eq_of_not_isStraySize (hscope : b.scope = .size) (h : b.isStraySize = false) :
    b = ⟨.size, [.key "width"]⟩ ∨ b = ⟨.size, [.key "height"]⟩ := by
  obtain ⟨scope, segments⟩ := b
  obtain rfl : scope = .size := hscope
  simp only [Binding.isStraySize, beq_self_eq_true, Bool.true_and, Option.isNone_eq_false_iff,
    Binding.axis?] at h
  split at h
  · rename_i name
    split at h
    · rename_i hname
      exact .inl (by rw [hname])
    · split at h
      · rename_i hname
        exact .inr (by rw [hname])
      · cases h
  · cases h

variable {l : Layout} {E : Error} {cause : SchemaCause}

theorem schema_of_render_eq_error {r : Renderer} {size : Size} {c : Context}
    (h : r.render l size c = .error E) (hE : E.root = .schema place cause) :
    ∃ b, cause = .unresolvedSize b ∧ l.Strays b := by
  obtain ⟨e, he, rfl⟩ := Renderer.exists_refusal_of_render h
  rw [Error.root_inWidget] at hE
  exact (Occurrence.concerns_of_refusal l.straysMeet_strays he).root_schema hE

theorem schema_of_generate_eq_error {style : Style} {package : String} {target : SourceTarget}
    (h : Source.File.generate style package target l = .error E) (hE : E.root = .schema place cause) :
    ∃ b, cause = .unresolvedSize b ∧ l.Strays b := by
  obtain ⟨e, ⟨env, he⟩, rfl⟩ := Source.File.exists_of_generate_eq_error l.straysMeet_strays h
  rw [Error.root_inWidget] at hE
  exact he.root_schema hE

/-- In a layout that was read, a binding to the canvas names its width or its height or is a
placeholder of a template. A placeholder that does neither keeps every source from being generated;
only of such placeholders do generation and rendering complain as of the structure of the layout. -/
theorem unresolved_only_in_templates {document : Json} {l : Layout}
    (hread : read document = .ok l) :
    (∀ d ∈ l.root.walk, ∀ p v, (p, v) ∈ d.properties → ∀ b ∈ v.bindings, b.scope = .size →
      b = ⟨.size, [.key "width"]⟩ ∨ b = ⟨.size, [.key "height"]⟩ ∨
        (p = .text ∨ p = .src) ∧ ∃ place parts, v = .ofTemplate place parts ∧
          .placeholder b ∈ parts) ∧
    ((∃ b, l.Strays b) → ∀ style package target,
      ¬Succeeds (Source.File.generate style package target l)) ∧
    (∀ style package target E, Source.File.generate style package target l = .error E →
      ∀ place cause, E.root = .schema place cause → ∃ b, cause = .unresolvedSize b ∧ l.Strays b) ∧
    (∀ (r : Renderer) size c E, r.render l size c = .error E →
      ∀ place cause, E.root = .schema place cause →
        ∃ b, cause = .unresolvedSize b ∧ l.Strays b) := by
  obtain ⟨place, v, hroot⟩ := exists_root_of_read hread
  have hsound := Element.sound_of_read PropertyValue.ensured_checked hroot
  refine ⟨?_, ?_, ?_, ?_⟩
  · intro d hd p v hv b hb hscope
    rcases (hsound d hd).values p v hv with hchecked | ⟨hp, place, parts, rfl⟩
    · rcases eq_of_not_isStraySize hscope (hchecked b hb) with h | h
      · exact .inl h
      · exact .inr (.inl h)
    · exact .inr (.inr ⟨hp, place, parts, rfl, PropertyValue.mem_bindings_ofTemplate.mp hb⟩)
  · rintro ⟨b, d, hd, f, hf, hb, hstray⟩ style package target hgenerate
    obtain ⟨s, hs⟩ := exists_mem_of_ne_nil _ (sizes_ne_nil_of_read hread)
    have haccepts := (Source.File.succeeds_generate_iff style package target l).mp hgenerate s hs
    exact Element.not_accepts_of_stray hsound hd hf hb hstray haccepts
  · intro style package target E hE place cause hcause
    exact schema_of_generate_eq_error hE hcause
  · intro r size c E hE place cause hcause
    exact schema_of_render_eq_error hE hcause

/-- A placeholder for a depth of the canvas is read, and then no source can be generated. -/
theorem unresolved_only_in_templates_depth : ∃ document l, read document = .ok l ∧
    l.Strays ⟨.size, [.key "depth"]⟩ ∧
    ∀ style package target, ¬Succeeds (Source.File.generate style package target l) := by
  let document : Json := .object
    [("layout", .object [("text", .string "\x7b\x7bsize.depth\x7d\x7d"), ("type", .string "label")]),
     ("name", .string "Demo"),
     ("supportedSizes", .array [.object [("height", .number (.integer 110)),
       ("id", .string "small"), ("width", .number (.integer 110))]])]
  have hlayout : ((read document).toOption.map fun l =>
      l.root.walk.any fun d => d.properties.any fun f => f.2.bindings.any fun b =>
        b == ⟨.size, [.key "depth"]⟩) = some true := by
    decide +kernel
  obtain ⟨l, hread, hfound⟩ := exists_of_toOption_map hlayout
  have hstray : l.Strays ⟨.size, [.key "depth"]⟩ := by
    obtain ⟨d, hd, hfound⟩ := any_eq_true.mp hfound
    obtain ⟨f, hf, hfound⟩ := any_eq_true.mp hfound
    obtain ⟨b, hb, hfound⟩ := any_eq_true.mp hfound
    obtain rfl := beq_iff_eq.mp hfound
    exact ⟨d, hd, f, hf, hb, by decide⟩
  exact ⟨document, l, hread, hstray, (unresolved_only_in_templates hread).2.1 ⟨_, hstray⟩⟩

end Layout

end Widgetry
