import Widgetry.Proofs.Expr.RoundTrip

/-!
# Grammar of property values

A property value is written as itself, as a path, as a template or as an expression; which of these it
may be depends on the shape of the property. Readers accept what the grammar allows and nothing else.
What they return has the shape of its property, and all operators in it have as many operands as they
take.
-/

namespace Widgetry

open List

variable {parts : List TemplatePart}

/-! ### Values of properties -/

/-- Text as a value: a reference to a setting, a binding, of the canvas only to an axis, or, where
text is wanted, a template. -/
def ValueType.AdmitsText (type : ValueType) (s : String) : Prop :=
  match Binding.settingKey? s, Binding.parse? s with
  | some _, _ => True
  | none, some b => b.isStraySize = false
  | none, none => type = .string → Template.Written s.toList

/-- Which values of a document a shape admits. -/
def Shape.Admits : Shape → Json → Prop
  | .value type, v =>
      (∃ n, v = .number n) ∨ (∃ b, v = .bool b) ∨ (∃ s, v = .string s ∧ type.AdmitsText s) ∨
        ∃ items, v = .array items ∧ Expr.Written v
  | .keyword, v => ∃ s, v = .string s
  | .direction, v => v = .string "vertical" ∨ v = .string "horizontal"
  | .fontWeight, v =>
      (∃ b, v = .bool b) ∨ (∃ s, v = .string s ∧ ValueType.AdmitsText .any s) ∨
        ∃ items, v = .array items ∧ Expr.Written v
  | .listBinding, v =>
      ∃ s b, v = .string s ∧ (Binding.parse? s).or (Binding.parse? ("item." ++ s)) = some b ∧
        (b.scope = .item ∨ b.scope = .data)
  | .count, v => ∃ n k, v = .number n ∧ n.natural? = some k
  | .flag, v => ∃ b, v = .bool b

namespace PropertyValue

/-- A literal, a reference or an expression whose operators have as many operands as they take. -/
def IsValue : PropertyValue → Prop
  | .literal l => l.IsPlain
  | .binding _ | .setting _ => True
  | .expression e => e.Formed

def HasShape (value : PropertyValue) : Shape → Prop
  | .value _ => value.IsValue
  | .keyword => ∃ s, value = .literal (.string s)
  | .direction =>
      value = .literal (.string "vertical") ∨ value = .literal (.string "horizontal")
  | .fontWeight => value.IsValue ∧ value.number? = none
  | .listBinding => ∃ b, value = .binding b ∧ (b.scope = .item ∨ b.scope = .data)
  | .count => ∃ k, value = .literal (.number (Float.ofNat k))
  | .flag => ∃ b, value = .literal (.bool b)

theorem succeeds_readString_iff (type : ValueType) (place : Location) (s : String) :
    Succeeds (readString type place s) ↔ type.AdmitsText s := by
  unfold readString ValueType.AdmitsText
  cases Binding.settingKey? s with
  | some key => exact iff_of_true (succeeds_ok _) trivial
  | none =>
    cases Binding.parse? s with
    | some b =>
      simp only
      cases hstray : b.isStraySize with
      | true => exact iff_of_false nofun (by simp)
      | false => exact iff_of_true (succeeds_ok _) rfl
    | none =>
      simp only
      split
      · rename_i htype
        rw [← Template.succeeds_parse_iff]
        cases Template.parse s with
        | error e => exact iff_of_false nofun fun h => nomatch h htype
        | ok found =>
          cases found with
          | none => exact iff_of_true (succeeds_ok _) fun _ => succeeds_ok _
          | some parts => exact iff_of_true (succeeds_ok _) fun _ => succeeds_ok _
      · rename_i htype
        exact iff_of_true (succeeds_ok _) fun h => absurd h htype

theorem succeeds_readValue_iff (type : ValueType) (place : Location) (v : Json) :
    Succeeds (readValue type place v) ↔ (Shape.value type).Admits v := by
  cases v with
  | string s => simp [readValue, Shape.Admits, succeeds_readString_iff]
  | array items =>
    simp [readValue, Shape.Admits, succeeds_map_iff, Expr.succeeds_read_iff]
  | number n => exact iff_of_true (succeeds_ok _) (.inl ⟨n, rfl⟩)
  | bool b => exact iff_of_true (succeeds_ok _) (.inr (.inl ⟨b, rfl⟩))
  | null | object _ => exact iff_of_false nofun (by simp [Shape.Admits])

theorem succeeds_readList_iff (place : Location) (v : Json) :
    Succeeds (readList place v) ↔ Shape.listBinding.Admits v := by
  cases v with
  | string s =>
    simp only [readList, Json.string?, Option.bind_some, Shape.Admits]
    split
    · rename_i b hb
      split
      · rename_i hscope
        exact iff_of_true (succeeds_ok _) ⟨s, b, rfl, hb, hscope⟩
      · rename_i hscope
        refine iff_of_false nofun ?_
        rintro ⟨s', b', hs, hb', hscope'⟩
        cases hs
        rw [hb] at hb'
        cases hb'
        exact hscope hscope'
    · rename_i hnone
      refine iff_of_false nofun ?_
      rintro ⟨s', b', hs, hb', -⟩
      cases hs
      rw [hnone] at hb'
      cases hb'
  | _ => exact iff_of_false nofun (by simp [Shape.Admits])

theorem succeeds_read_iff (property : Property) (place : Location) (v : Json) :
    Succeeds (read property place v) ↔ property.shape.Admits v := by
  unfold read
  generalize property.shape = shape
  cases shape with
  | value type => exact succeeds_readValue_iff type place v
  | listBinding => exact succeeds_readList_iff place v
  | keyword =>
    cases v with
    | string s => exact iff_of_true (succeeds_ok _) ⟨s, rfl⟩
    | _ => exact iff_of_false nofun nofun
  | direction =>
    cases v with
    | string s =>
      simp only [Shape.Admits, Json.string.injEq]
      split
      · rename_i h
        exact iff_of_true (succeeds_ok _) h
      · rename_i h
        exact iff_of_false nofun h
    | _ => exact iff_of_false nofun (by simp [Shape.Admits])
  | fontWeight =>
    cases v with
    | bool b => exact iff_of_true (succeeds_ok _) (.inl ⟨b, rfl⟩)
    | string s => simp [Shape.Admits, succeeds_readString_iff]
    | array items => simp [Shape.Admits, succeeds_readValue_iff]
    | _ => exact iff_of_false nofun (by simp [Shape.Admits])
  | count =>
    cases v with
    | number n =>
      simp only [Shape.Admits, Json.number.injEq]
      cases hk : n.natural? with
      | none => exact iff_of_false nofun (by simp [hk])
      | some k => exact iff_of_true (succeeds_ok _) ⟨n, k, rfl, hk⟩
    | _ => exact iff_of_false nofun (by simp [Shape.Admits])
  | flag =>
    cases v with
    | bool b => exact iff_of_true (succeeds_ok _) ⟨b, rfl⟩
    | _ => exact iff_of_false nofun nofun

/-- A template with something in it becomes a binding or a concatenation of at least one text. -/
theorem isValue_ofTemplate (place : Location) (h : parts ≠ []) :
    (ofTemplate place parts).IsValue := by
  unfold ofTemplate
  split
  · trivial
  · refine .op ?_ ?_
    · have hpos := length_pos_iff.mpr h
      simp [Operator.arity, Arity.atLeast, Arity.admits, Arity.inBounds, Arity.hasParity]
      omega
    · intro a ha
      obtain ⟨part, -, rfl⟩ := mem_map.mp ha
      cases part with
      | text s => exact .literal (by simp [Literal.IsPlain, Literal.type])
      | placeholder b =>
        refine .op rfl fun a ha => ?_
        obtain rfl := mem_singleton.mp ha
        exact .get (by simp)

theorem number?_ofTemplate (place : Location) (parts : List TemplatePart) :
    (ofTemplate place parts).number? = none := by
  unfold ofTemplate
  split <;> rfl

variable {type : ValueType} {place : Location} {v : Json} {value : PropertyValue} {p : Property}

/-- What a value is read from: itself, text that refers to something, a template, or an expression. -/
theorem cases_of_readValue (h : readValue type place v = .ok value) :
    (∃ l, Expr.readLiteral? v = some l ∧ value = .literal l) ∨
    (∃ s, v = .string s ∧ ((∃ key, value = .setting key) ∨
      (∃ b, b.isStraySize = false ∧ value = .binding b) ∨
      type = .string ∧ ∃ parts, parts ≠ [] ∧ value = ofTemplate place parts)) ∨
    ∃ items e, v = .array items ∧ Expr.read place v = .ok e ∧ value = .expression e := by
  cases v with
  | string s =>
    rw [readValue, readString] at h
    split at h
    · cases h
      exact .inr (.inl ⟨s, rfl, .inl ⟨_, rfl⟩⟩)
    · split at h
      · cases h
      · rename_i hstray
        cases h
        exact .inr (.inl ⟨s, rfl, .inr (.inl ⟨_, Bool.eq_false_iff.mpr hstray, rfl⟩)⟩)
    · split at h
      · rename_i htype
        split at h
        · cases h
        · rename_i parts hparse
          cases h
          exact .inr (.inl ⟨s, rfl, .inr (.inr ⟨htype, parts, Template.ne_nil_of_parse hparse, rfl⟩)⟩)
        · cases h
          exact .inl ⟨_, rfl, rfl⟩
      · cases h
        exact .inl ⟨_, rfl, rfl⟩
  | array items =>
    obtain ⟨e, he, rfl⟩ := exists_of_map_eq_ok h
    exact .inr (.inr ⟨items, e, rfl, he, rfl⟩)
  | number | bool =>
    cases h
    exact .inl ⟨_, rfl, rfl⟩
  | null | object => cases h

theorem isValue_of_readValue (h : readValue type place v = .ok value) :
    value.IsValue ∧ ((∀ n, v ≠ .number n) → value.number? = none) := by
  obtain ⟨l, hl, rfl⟩ | ⟨s, rfl, ⟨key, rfl⟩ | ⟨b, -, rfl⟩ | ⟨-, parts, hparts, rfl⟩⟩ |
    ⟨items, e, rfl, he, rfl⟩ := cases_of_readValue h
  · refine ⟨Expr.isPlain_of_readLiteral? hl, fun hv => ?_⟩
    cases v with
    | number n => exact absurd rfl (hv n)
    | string | bool =>
      cases hl
      rfl
    | _ => cases hl
  · exact ⟨trivial, fun _ => rfl⟩
  · exact ⟨trivial, fun _ => rfl⟩
  · exact ⟨isValue_ofTemplate place hparts, fun _ => number?_ofTemplate place parts⟩
  · exact ⟨(Expr.written_of_read he).2, fun _ => rfl⟩

theorem yields_read (property : Property) (place : Location) (v : Json) :
    Yields (fun value => value.HasShape property.shape) (read property place v) := by
  unfold read
  generalize property.shape = shape
  cases shape with
  | value type => exact (yields_self _).imp fun _ h => (isValue_of_readValue h).1
  | listBinding =>
    simp only [readList]
    split
    · rename_i b _
      split
      · rename_i hscope
        exact ⟨b, rfl, hscope⟩
      · exact yields_error _ _
    · exact yields_error _ _
  | keyword =>
    cases v with
    | string s => exact ⟨s, rfl⟩
    | _ => exact yields_error _ _
  | direction =>
    cases v with
    | string s =>
      simp only
      split
      · rename_i h
        obtain rfl | rfl := h
        · exact .inl rfl
        · exact .inr rfl
      · exact yields_error _ _
    | _ => exact yields_error _ _
  | fontWeight =>
    have hother (v : Json) (hv : ∀ n, v ≠ .number n) :
        Yields (fun value => value.HasShape .fontWeight) (readValue .any place v) := by
      refine (yields_self _).imp fun value h => ?_
      obtain ⟨hvalue, hnumber⟩ := isValue_of_readValue h
      exact ⟨hvalue, hnumber hv⟩
    cases v with
    | bool b => exact hother (.bool b) nofun
    | string s => exact hother (.string s) nofun
    | array items => exact hother (.array items) nofun
    | _ => exact yields_error _ _
  | count =>
    cases v with
    | number n =>
      simp only
      split
      · exact ⟨_, rfl⟩
      · exact yields_error _ _
    | _ => exact yields_error _ _
  | flag =>
    cases v with
    | bool b => exact ⟨b, rfl⟩
    | _ => exact yields_error _ _

/-- What is not read as a value of some type is a binding to a list or a literal. -/
theorem cases_of_read (h : read p place v = .ok value) :
    (∃ type, (type = .string → p.shape = .value .string) ∧ readValue type place v = .ok value) ∨
      (∃ b, value = .binding b ∧ (b.scope = .item ∨ b.scope = .data)) ∨ ∃ l, value = .literal l := by
  have hshape := (yields_read p place v).of_ok h
  unfold read at h
  cases hp : p.shape with
  | value type =>
    rw [hp] at h
    exact .inl ⟨type, fun htype => by rw [htype], h⟩
  | fontWeight =>
    rw [hp] at h
    cases v with
    | bool _ | string _ | array _ => exact .inl ⟨.any, nofun, h⟩
    | _ => cases h
  | listBinding =>
    rw [hp] at hshape
    exact .inr (.inl hshape)
  | keyword | count | flag =>
    rw [hp] at hshape
    obtain ⟨_, hvalue⟩ := hshape
    exact .inr (.inr ⟨_, hvalue⟩)
  | direction =>
    rw [hp] at hshape
    obtain hvalue | hvalue := hshape <;> exact .inr (.inr ⟨_, hvalue⟩)

end PropertyValue

end Widgetry
