import Mathlib.Data.List.Pairwise
import Widgetry.Proofs.Element.Value
import Widgetry.Proofs.Json.Order

/-!
# Grammar of elements

Which JSON values describe an element, and what elements are like that were read from one. The
grammar speaks of the keys of an object all at once; the reader takes them one by one, so its runs are
described by the properties named so far.
-/

namespace Widgetry

open List

variable {key : String} {p : Property} {k : Kind}

namespace Property

instance : Std.LawfulEqOrd Property := Table.lawfulEqCmp_compareOn ofNat_ctorIdx

instance : Std.TransOrd Property := inferInstanceAs (Std.TransCmp (compareOn Property.ctorIdx))

/-- The keys that name a property; `visibleIf` is another name of `visible`. -/
def IsNamed (p : Property) (key : String) : Prop :=
  key = p.name ∨ (key = "visibleIf" ∧ p = .visible)

theorem ofName?_eq_some_iff : ofName? key = some p ↔ p.IsNamed key := by
  unfold ofName? IsNamed
  split
  · rename_i hkey
    subst hkey
    cases p <;> simp [name]
  · rename_i hkey
    simp only [hkey, false_and, or_false]
    constructor
    · intro h
      have hname := List.find?_some h
      exact (beq_iff_eq.mp hname).symm
    · rintro rfl
      cases p <;> rfl

end Property

namespace Kind

theorem ofName?_eq_some_iff {s : String} : ofName? s = some k ↔ s = k.name := by
  constructor
  · intro h
    have hname := List.find?_some h
    exact (beq_iff_eq.mp hname).symm
  · rintro rfl
    cases k <;> rfl

/-- Keys under which a kind holds elements by themselves. -/
def slots : Kind → List String
  | .forEach => ["itemTemplate"]
  | .conditional => ["then", "else"]
  | _ => []

def requiredSlots : Kind → List String
  | .forEach => ["itemTemplate"]
  | .conditional => ["then"]
  | _ => []

/-- Which keys an element of a kind may have, and with what values apart from the elements below. -/
def Takes (k : Kind) (key : String) (v : Json) : Prop :=
  key = "type" ∨
  (key = "id" ∧ ∃ s, v = .string s) ∨
  (key = "children" ∧ k.isContainer = true ∧ ∃ items, v = .array items) ∨
  key ∈ k.slots ∨
  ∃ p, p.IsNamed key ∧ k.allows p = true ∧ p.shape.Admits v

def admitsChildren : Kind → Nat → Bool
  | .column, _ | .row, _ | .stack, _ | .scrollView, _ => true
  | .label, n | .image, n | .spacer, n | .divider, n => n == 0
  | .forEach, n => n == 1
  | .conditional, n => n == 1 || n == 2

end Kind

namespace Element

/-- The JSON values that describe an element. -/
inductive Written : Json → Prop
  | object {fields : List (String × Json)} {k : Kind}
      (htype : ("type", .string k.name) ∈ fields)
      (hkeys : ∀ key v, (key, v) ∈ fields → k.Takes key v)
      (hvisible : ¬("visible" ∈ fields.map Prod.fst ∧ "visibleIf" ∈ fields.map Prod.fst))
      (hrequired : ∀ p ∈ k.required, p.name ∈ fields.map Prod.fst)
      (hslots : ∀ slot ∈ k.requiredSlots, slot ∈ fields.map Prod.fst)
      (hchildren : ∀ items, ("children", .array items) ∈ fields → ∀ v ∈ items, Written v)
      (hparts : ∀ slot ∈ k.slots, ∀ v, (slot, v) ∈ fields → Written v) :
      Written (.object fields)

/-- An element that has what its kind needs and nothing it does not allow, where the values of its
properties meet a condition. -/
structure FormedBy (P : Property → PropertyValue → Prop) (e : Element) : Prop where
  children : e.kind.admitsChildren e.children.length = true
  allowed : ∀ p value, (p, value) ∈ e.properties → e.kind.allows p = true
  required : ∀ p ∈ e.kind.required, ∃ value, e.get? p = some value
  sorted : Table.Sorted e.properties
  values : ∀ p value, (p, value) ∈ e.properties → P p value

/-- An element of this form whose values have the shapes of their properties. -/
def WellFormed (e : Element) : Prop := e.FormedBy fun p value => value.HasShape p.shape

/-! ### Properties named by keys -/

/-- The properties that keys name, in order. -/
def named (fields : List (String × Json)) : List Property :=
  fields.filterMap fun f => Property.ofName? f.1

variable {fields : List (String × Json)} {v : Json} {place : Location}

theorem mem_named : p ∈ named fields ↔ ∃ f ∈ fields, p.IsNamed f.1 := by
  simp only [named, mem_filterMap, Property.ofName?_eq_some_iff]

/-- Where keys differ, only the two names of `visible` name a property twice. -/
theorem nodup_named_iff (h : Table.Sorted fields) :
    (named fields).Nodup ↔
      ¬("visible" ∈ fields.map Prod.fst ∧ "visibleIf" ∈ fields.map Prod.fst) := by
  have hvisible : Property.ofName? "visible" = some .visible := by decide
  have hvisibleIf : Property.ofName? "visibleIf" = some .visible := by decide
  unfold named List.Nodup
  rw [pairwise_filterMap]
  constructor
  · rintro hpairs ⟨hfirst, hsecond⟩
    obtain ⟨f, hf, hfkey⟩ := mem_map.mp hfirst
    obtain ⟨g, hg, hgkey⟩ := mem_map.mp hsecond
    have hsymm : Std.Symm fun a b : String × Json =>
        ∀ p, Property.ofName? a.1 = some p → ∀ q, Property.ofName? b.1 = some q → p ≠ q :=
      ⟨fun a b hab p hp q hq => (hab q hq p hp).symm⟩
    have hne : f ≠ g := by
      rintro rfl
      rw [hfkey] at hgkey
      exact absurd hgkey (by decide)
    rw [← hfkey] at hvisible
    rw [← hgkey] at hvisibleIf
    exact hpairs.forall hf hg hne .visible hvisible .visible hvisibleIf rfl
  · intro hone
    refine h.imp_of_mem ?_
    rintro f g hf hg hlt p hp q hq rfl
    have hne : f.1 ≠ g.1 := by
      intro heq
      rw [heq, Std.compare_self] at hlt
      cases hlt
    have hkey {e : String × Json} {key : String} (he : e ∈ fields) (hname : e.1 = key) :
        key ∈ fields.map Prod.fst := mem_map.mpr ⟨e, he, hname⟩
    rw [Property.ofName?_eq_some_iff] at hp hq
    rcases hp with hp | ⟨hp, rfl⟩
    · rcases hq with hq | ⟨hq, rfl⟩
      · exact hne (hp.trans hq.symm)
      · exact hone ⟨hkey hf hp, hkey hg hq⟩
    · rcases hq with hq | ⟨hq, -⟩
      · exact hone ⟨hkey hg hq, hkey hf hp⟩
      · exact hne (hp.trans hq.symm)

theorem required_ne_visible (h : p ∈ k.required) : p ≠ .visible := by
  rintro rfl
  cases k <;> simp [Kind.required] at h

theorem name_mem_keys_iff (h : p ∈ k.required) :
    p ∈ named fields ↔ p.name ∈ fields.map Prod.fst := by
  simp only [mem_named, Property.IsNamed, required_ne_visible h, and_false, or_false,
    mem_map]

/-! ### What the reader gathers -/

theorem contains_insert (t : Table Property PropertyValue) (p q : Property)
    (value : PropertyValue) :
    (t.insert p value).contains q = true ↔ q = p ∨ t.contains q = true := by
  unfold Table.contains
  by_cases hq : q = p
  · subst hq
    simp [Table.get?_insert_self]
  · simp [Table.get?_insert_of_ne hq, hq]

theorem succeeds_readProperty_iff (k : Kind) (place : Location) (key : String) (v : Json)
    (parts : Parts) :
    Succeeds (readProperty k place key v parts) ↔
      ∃ p, p.IsNamed key ∧ k.allows p = true ∧ p.shape.Admits v ∧
        parts.properties.contains p = false := by
  simp only [← Property.ofName?_eq_some_iff, readProperty]
  cases Property.ofName? key with
  | none => exact iff_of_false nofun (by simp)
  | some p =>
    simp only [Option.some.injEq, exists_eq_left', Bool.not_eq_eq_eq_not, Bool.not_true]
    cases k.allows p with
    | false => exact iff_of_false nofun (by simp)
    | true =>
      rw [← PropertyValue.succeeds_read_iff p place v]
      simp only [Bool.true_eq_false, if_false, true_and]
      refine succeeds_bind_iff fun value => ?_
      cases parts.properties.contains p with
      | true => exact iff_of_false nofun nofun
      | false => exact iff_of_true (succeeds_ok _) rfl

/-- Keys of elements that are no properties. -/
def structuralKeys : List String := ["type", "id", "children", "itemTemplate", "then", "else"]

theorem not_isNamed_of_structural (h : key ∈ structuralKeys) (p : Property) : ¬p.IsNamed key := by
  have hnone : ∀ key ∈ structuralKeys, Property.ofName? key = none := by decide
  rw [← Property.ofName?_eq_some_iff, hnone key h]
  nofun

theorem mem_slots_iff :
    key ∈ k.slots ↔ (key = "itemTemplate" ∧ k = .forEach) ∨
      ((key = "then" ∨ key = "else") ∧ k = .conditional) := by
  cases k <;> simp [Kind.slots]

theorem takes_structural_iff (h : key ∈ structuralKeys) :
    k.Takes key v ↔ key = "type" ∨ (key = "id" ∧ ∃ s, v = .string s) ∨
      (key = "children" ∧ k.isContainer = true ∧ ∃ items, v = .array items) ∨
      (key = "itemTemplate" ∧ k = .forEach) ∨
      ((key = "then" ∨ key = "else") ∧ k = .conditional) := by
  simp only [Kind.Takes, mem_slots_iff, not_isNamed_of_structural h, false_and, exists_false,
    or_false]

/-- A key is accepted when the kind takes it and it names no property that is there already. -/
theorem succeeds_readPlain_iff (k : Kind) (place : Location) (v : Json) (parts : Parts)
    (hkey : key ≠ "children") :
    Succeeds (readPlain k place key v parts) ↔
      k.Takes key v ∧ ∀ p : Property, p.IsNamed key → parts.properties.contains p = false := by
  have hstructural (h : key ∈ structuralKeys) :
      (k.Takes key v ∧ ∀ p : Property, p.IsNamed key → parts.properties.contains p = false) ↔
        k.Takes key v :=
    and_iff_left fun p hp => absurd hp (not_isNamed_of_structural h p)
  by_cases hmem : key ∈ structuralKeys
  · rw [hstructural hmem, takes_structural_iff hmem]
    simp only [structuralKeys, mem_cons, not_mem_nil, or_false, hkey, false_or] at hmem
    rcases hmem with rfl | rfl | rfl | rfl | rfl
    · exact iff_of_true (succeeds_ok _) (.inl rfl)
    · cases v with
      | string s => exact iff_of_true (succeeds_ok _) (by simp)
      | _ => exact iff_of_false nofun (by simp)
    all_goals
      simp only [readPlain, String.reduceEq, reduceIte, or_true, true_or]
      split
      · rename_i hk
        exact iff_of_true (succeeds_ok _) (by simp [hk])
      · rename_i hk
        exact iff_of_false nofun (by simp [hk])
  · have hread : readPlain k place key v parts = readProperty k place key v parts := by
      simp only [structuralKeys, mem_cons, not_mem_nil, or_false, not_or] at hmem
      simp [readPlain, hmem]
    rw [hread, succeeds_readProperty_iff, Kind.Takes, mem_slots_iff]
    simp only [structuralKeys, mem_cons, not_mem_nil, or_false, not_or] at hmem
    simp only [hmem, false_and, false_or]
    constructor
    · rintro ⟨p, hp, hallows, hadmits, hnew⟩
      refine ⟨⟨p, hp, hallows, hadmits⟩, fun q hq => ?_⟩
      rw [← Property.ofName?_eq_some_iff] at hp hq
      rw [hp] at hq
      cases hq
      exact hnew
    · rintro ⟨⟨p, hp, hallows, hadmits⟩, hnew⟩
      exact ⟨p, hp, hallows, hadmits, hnew p hp⟩

/-- What a key that holds no elements adds: the property it names, if any. -/
structure Adds (k : Kind) (place : Location) (key : String) (v : Json) (before after : Parts) :
    Prop where
  children : after.children = before.children
  contains_iff : ∀ p, after.properties.contains p = true ↔
    p.IsNamed key ∨ before.properties.contains p = true
  sorted : Table.Sorted before.properties → Table.Sorted after.properties
  entries : ∀ e ∈ after.properties, e ∈ before.properties ∨
    k.allows e.1 = true ∧ e.1.IsNamed key ∧ PropertyValue.read e.1 place v = .ok e.2

theorem adds_structural (h : key ∈ structuralKeys) (parts : Parts) (id : Option String) :
    Adds k place key v parts { parts with id := id } where
  children := rfl
  contains_iff p := by simp [not_isNamed_of_structural h]
  sorted := fun hsorted => hsorted
  entries _ he := .inl he

theorem yields_readProperty (k : Kind) (place : Location) (key : String) (v : Json) (parts : Parts) :
    Yields (Adds k place key v parts) (readProperty k place key v parts) := by
  unfold readProperty
  split
  · exact yields_error _ _
  · rename_i p hp
    split
    · exact yields_error _ _
    · rename_i hallows
      refine (yields_self _).bind fun value hvalue => ?_
      split
      · exact yields_error _ _
      · refine ⟨rfl, fun q => ?_, fun hsorted => hsorted.insert p value, fun e he => ?_⟩
        · rw [contains_insert, ← Property.ofName?_eq_some_iff, hp, Option.some.injEq, eq_comm]
        · rcases Table.mem_insert he with rfl | he
          · exact .inr ⟨by simpa using hallows, Property.ofName?_eq_some_iff.mp hp, hvalue⟩
          · exact .inl he

theorem yields_readPlain (k : Kind) (place : Location) (key : String) (v : Json) (parts : Parts) :
    Yields (Adds k place key v parts) (readPlain k place key v parts) := by
  have hkept (h : key ∈ structuralKeys) :
      Yields (Adds k place key v parts) (.ok parts : Except Error _) :=
    adds_structural h parts parts.id
  unfold readPlain
  split
  · rename_i h
    exact hkept (by simp [structuralKeys, h])
  · split
    · rename_i h
      split
      · exact adds_structural (by simp [structuralKeys, h]) parts _
      · exact yields_error _ _
    · split
      · rename_i h
        split
        · exact hkept (by simp [structuralKeys, h])
        · exact yields_error _ _
      · split
        · rename_i h
          split
          · exact hkept (by rcases h with h | h <;> simp [structuralKeys, h])
          · exact yields_error _ _
        · exact yields_readProperty k place key v parts

theorem readFields_plain (k : Kind) (place : Location) (v : Json) (parts : Parts)
    (fields : List (String × Json)) (h : key ≠ "children") :
    readFields k place parts ((key, v) :: fields) =
      readPlain k (place.field key) key v parts >>= fun parts =>
        readFields k place parts fields := by
  cases v with
  | array items => rw [readFields, if_neg h]
  | _ =>
    rw [readFields, if_neg h]
    rintro items ⟨⟩

theorem readFields_children (k : Kind) (place : Location) (items : List Json) (parts : Parts)
    (fields : List (String × Json)) (h : k.isContainer = true) :
    readFields k place parts (("children", .array items) :: fields) =
      readItems (place.field "children") 0 items >>= fun children =>
        readFields k place { parts with children := children } fields := by
  rw [readFields, if_pos rfl, h]
  rfl

variable {parts : Parts}

theorem holds_children_of_succeeds
    (h : Succeeds (readFields k place parts (("children", v) :: fields))) :
    k.isContainer = true ∧ ∃ items, v = .array items := by
  cases v with
  | array items =>
    rw [readFields, if_pos rfl] at h
    cases hk : k.isContainer with
    | false =>
      rw [hk] at h
      exact absurd h (not_succeeds_error _)
    | true => exact ⟨rfl, items, rfl⟩
  | _ =>
    rw [readFields, if_pos rfl] at h
    · cases hk : k.isContainer with
      | false | true =>
        rw [hk] at h
        exact absurd h (not_succeeds_error _)
    · rintro items ⟨⟩

theorem named_cons_structural (h : key ∈ structuralKeys) (v : Json) (fields : List (String × Json)) :
    named ((key, v) :: fields) = named fields := by
  have hnone : ∀ key ∈ structuralKeys, Property.ofName? key = none := by decide
  simp [named, hnone key h]

theorem mem_named_cons : p ∈ named ((key, v) :: fields) ↔ p.IsNamed key ∨ p ∈ named fields := by
  simp [mem_named]

theorem nodup_named_cons :
    (named ((key, v) :: fields)).Nodup ↔
      (named fields).Nodup ∧ ∀ p : Property, p.IsNamed key → p ∉ named fields := by
  simp only [← Property.ofName?_eq_some_iff, named, filterMap_cons]
  cases Property.ofName? key with
  | none => simp
  | some p => simp [and_comm]

/-- Keys that a kind takes, and what they add: the properties they name, which are new, each with what
stands under its key, and the elements under `children`. -/
structure Gathers (k : Kind) (place : Location) (fields : List (String × Json))
    (before after : Parts) : Prop where
  takes : ∀ key v, (key, v) ∈ fields → k.Takes key v
  nodup : (named fields).Nodup
  fresh : ∀ p ∈ named fields, before.properties.contains p = false
  contains_iff : ∀ p, after.properties.contains p = true ↔
    p ∈ named fields ∨ before.properties.contains p = true
  sorted : Table.Sorted before.properties → Table.Sorted after.properties
  entries : ∀ e ∈ after.properties, e ∈ before.properties ∨
    k.allows e.1 = true ∧ ∃ key v, (key, v) ∈ fields ∧ e.1.IsNamed key ∧
      PropertyValue.read e.1 (place.field key) v = .ok e.2
  children : ("children" ∉ fields.map Prod.fst ∧ after.children = before.children) ∨
    k.isContainer = true ∧ ∃ items, ("children", .array items) ∈ fields ∧
      readItems (place.field "children") 0 items = .ok after.children

theorem gathers_of_readFields {parts' : Parts} (h : readFields k place parts fields = .ok parts') :
    Gathers k place fields parts parts' := by
  induction fields generalizing parts with
  | nil =>
    cases h
    exact ⟨nofun, nodup_nil, nofun, by simp [named], fun hsorted => hsorted, fun _ he => .inl he,
      .inl ⟨not_mem_nil, rfl⟩⟩
  | cons f fields ih =>
    obtain ⟨key, v⟩ := f
    by_cases hkey : key = "children"
    · subst hkey
      obtain ⟨hk, items, rfl⟩ := holds_children_of_succeeds ⟨parts', h⟩
      rw [readFields_children k place items parts fields hk] at h
      obtain ⟨children, hchildren, h⟩ := exists_of_bind_eq_ok h
      have hrest := ih h
      have hnamed : named (("children", .array items) :: fields) = named fields :=
        named_cons_structural (by simp [structuralKeys]) _ _
      refine ⟨fun key v hv => ?_, by rw [hnamed]; exact hrest.nodup, by rw [hnamed]; exact hrest.fresh,
        by rw [hnamed]; exact hrest.contains_iff, hrest.sorted, fun e he => ?_, ?_⟩
      · rcases mem_cons.mp hv with heq | hv
        · cases heq
          exact .inr (.inr (.inl ⟨rfl, hk, items, rfl⟩))
        · exact hrest.takes key v hv
      · obtain hold | ⟨hallows, key, v, hmem, hread⟩ := hrest.entries e he
        · exact .inl hold
        · exact .inr ⟨hallows, key, v, .tail _ hmem, hread⟩
      · obtain ⟨-, hsame⟩ | ⟨-, items', hmem, hread⟩ := hrest.children
        · exact .inr ⟨hk, items, mem_cons_self, by rw [hsame, hchildren]⟩
        · exact .inr ⟨hk, items', .tail _ hmem, hread⟩
    · rw [readFields_plain k place v parts fields hkey] at h
      obtain ⟨parts₁, hplain, h⟩ := exists_of_bind_eq_ok h
      have hadds := (yields_readPlain k (place.field key) key v parts).of_ok hplain
      have hrest := ih h
      obtain ⟨htakes, hnew⟩ := (succeeds_readPlain_iff k _ v parts hkey).mp ⟨_, hplain⟩
      have hfresh (p : Property) (hp : p ∈ named fields) :
          ¬p.IsNamed key ∧ parts.properties.contains p = false := by
        have hp := hrest.fresh p hp
        rw [Bool.eq_false_iff, ne_eq, hadds.contains_iff] at hp
        exact ⟨fun hnamed => hp (.inl hnamed), Bool.eq_false_iff.mpr fun hold => hp (.inr hold)⟩
      refine ⟨fun key' v' hv => ?_,
        nodup_named_cons.mpr ⟨hrest.nodup, fun p hp hmem => (hfresh p hmem).1 hp⟩, fun p hp => ?_,
        fun p => ?_, fun hsorted => hrest.sorted (hadds.sorted hsorted), fun e he => ?_, ?_⟩
      · rcases mem_cons.mp hv with heq | hv
        · cases heq
          exact htakes
        · exact hrest.takes key' v' hv
      · exact (mem_named_cons.mp hp).elim (hnew p) fun hp => (hfresh p hp).2
      · rw [hrest.contains_iff, hadds.contains_iff, mem_named_cons]
        exact or_left_comm.trans (or_assoc).symm
      · obtain hold | ⟨hallows, key', v', hmem, hread⟩ := hrest.entries e he
        · obtain hold | ⟨hallows, hread⟩ := hadds.entries e hold
          · exact .inl hold
          · exact .inr ⟨hallows, key, v, mem_cons_self, hread⟩
        · exact .inr ⟨hallows, key', v', .tail _ hmem, hread⟩
      · obtain ⟨hnone, hsame⟩ | ⟨hk, items, hmem, hread⟩ := hrest.children
        · exact .inl ⟨by simp [Ne.symm hkey, hnone], hsame.trans hadds.children⟩
        · exact .inr ⟨hk, items, .tail _ hmem, hread⟩

/-! ### What the reader accepts -/

theorem succeeds_readKind_iff (h : Table.Sorted fields) :
    readKind place fields = .ok k ↔ ("type", .string k.name) ∈ fields := by
  have hget : ("type", Json.string k.name) ∈ fields ↔
      Table.get? fields "type" = some (.string k.name) :=
    ⟨h.get?_of_mem, Table.mem_of_get?⟩
  rw [hget]
  unfold readKind
  split
  · rename_i hnone
    rw [hnone]
    exact ⟨nofun, nofun⟩
  · rename_i name hname
    rw [hname, Option.some.injEq, Json.string.injEq, ← Kind.ofName?_eq_some_iff]
    cases Kind.ofName? name with
    | none => exact ⟨nofun, nofun⟩
    | some k' => simp
  · rename_i v hstring hv
    refine ⟨nofun, ?_⟩
    rw [hv]
    intro heq
    exact absurd (Option.some.inj heq) (hstring k.name)

theorem checkRequired_eq_ok_iff :
    checkRequired k place parts = .ok () ↔
      ∀ p ∈ k.required, parts.properties.contains p = true := by
  unfold checkRequired
  split
  · rename_i p hp
    refine ⟨nofun, fun h => ?_⟩
    have hmissing := List.find?_some hp
    rw [h p (mem_of_find?_eq_some hp)] at hmissing
    cases hmissing
  · rename_i hnone
    exact iff_of_true rfl fun p hp => by simpa using List.find?_eq_none.mp hnone p hp

def readSlots (k : Kind) (place : Location) (fields : List (String × Json)) :
    Except Error (List Element) :=
  match k with
  | .forEach => readSlot k place "itemTemplate" true fields
  | .conditional => do
      let first ← readSlot k place "then" true fields
      let second ← readSlot k place "else" false fields
      return first ++ second
  | _ => pure []

theorem read_object (place : Location) (fields : List (String × Json)) :
    read place (.object fields) = (do
      let k ← readKind place fields
      let parts ← readFields k place ⟨none, [], []⟩ fields
      checkRequired k place parts
      let slots ← readSlots k place fields
      return ⟨k, parts.id, parts.properties, parts.children ++ slots, place⟩) := by
  rw [read]
  refine bind_congr fun k => bind_congr fun parts => bind_congr fun _ => ?_
  cases k <;> simp [readSlots]

variable {slot : String} {needed : Bool}

theorem succeeds_readItems {vs : List Json} (h : ∀ v ∈ vs, ∀ place, Succeeds (read place v))
    (place : Location) (i : Nat) : Succeeds (readItems place i vs) :=
  Location.succeeds_numbered (fun _ => by rw [readItems]) (fun _ _ _ => by rw [readItems]) h

theorem succeeds_readFields (htakes : ∀ key v, (key, v) ∈ fields → k.Takes key v)
    (hchildren : ∀ items, ("children", .array items) ∈ fields →
      ∀ v ∈ items, ∀ place, Succeeds (read place v)) (hnodup : (named fields).Nodup)
    (hfresh : ∀ p ∈ named fields, parts.properties.contains p = false) :
    Succeeds (readFields k place parts fields) := by
  induction fields generalizing parts with
  | nil =>
    rw [readFields]
    exact succeeds_ok _
  | cons f fields ih =>
    obtain ⟨key, v⟩ := f
    have htake := htakes key v mem_cons_self
    have hrest {parts : Parts} := @ih parts (fun key v hv => htakes key v (.tail _ hv))
      fun items hitems => hchildren items (.tail _ hitems)
    by_cases hkey : key = "children"
    · subst hkey
      have hstructural : "children" ∈ structuralKeys := by simp [structuralKeys]
      obtain ⟨hk, items, rfl⟩ : k.isContainer = true ∧ ∃ items, v = .array items := by
        simpa using (takes_structural_iff hstructural).mp htake
      rw [named_cons_structural hstructural] at hnodup hfresh
      obtain ⟨children, hitems⟩ :=
        succeeds_readItems (hchildren items mem_cons_self) (place.field "children") 0
      rw [readFields_children k place items parts fields hk, hitems]
      exact hrest hnodup hfresh
    · obtain ⟨hnodup, hapart⟩ := nodup_named_cons.mp hnodup
      obtain ⟨parts₁, hplain⟩ := (succeeds_readPlain_iff k (place.field key) v parts hkey).mpr
        ⟨htake, fun p hp => hfresh p (mem_named_cons.mpr (.inl hp))⟩
      have hadds := (yields_readPlain k (place.field key) key v parts).of_ok hplain
      rw [readFields_plain k place v parts fields hkey, hplain]
      refine hrest hnodup fun p hp => ?_
      rw [Bool.eq_false_iff, ne_eq, hadds.contains_iff, hfresh p (mem_named_cons.mpr (.inr hp))]
      simpa using fun hnamed => hapart p hnamed hp

theorem succeeds_readSlot (h : ∀ v, (slot, v) ∈ fields → ∀ place, Succeeds (read place v))
    (hneeded : needed = true → slot ∈ fields.map Prod.fst) :
    Succeeds (readSlot k place slot needed fields) := by
  induction fields with
  | nil =>
    rw [readSlot, if_neg fun h => not_mem_nil (hneeded h)]
    exact succeeds_ok _
  | cons f fields ih =>
    obtain ⟨key, v⟩ := f
    rw [readSlot]
    split
    · rename_i hkey
      subst hkey
      exact succeeds_map_iff.mpr (h v mem_cons_self _)
    · rename_i hkey
      refine ih (fun v hv => h v (.tail _ hv)) fun hn => ?_
      exact (mem_cons.mp (hneeded hn)).resolve_left (Ne.symm hkey)

/-- Slots can be read when each one can, and those that are needed are there. -/
theorem succeeds_readSlots
    (h : ∀ slot ∈ k.slots, ∀ v, (slot, v) ∈ fields → ∀ place, Succeeds (read place v))
    (hneeded : ∀ slot ∈ k.requiredSlots, slot ∈ fields.map Prod.fst) :
    Succeeds (readSlots k place fields) := by
  cases k with
  | forEach => exact succeeds_readSlot (h _ mem_cons_self) fun _ => hneeded _ mem_cons_self
  | conditional =>
    refine (succeeds_bind_iff fun _ => succeeds_bind_iff_left fun _ => succeeds_ok _).mpr ⟨?_, ?_⟩
    · exact succeeds_readSlot (h _ mem_cons_self) fun _ => hneeded _ mem_cons_self
    · exact succeeds_readSlot (h _ (mem_cons_of_mem _ mem_cons_self)) nofun
  | _ => exact succeeds_ok _

theorem succeeds_read_of_written (h : Written v) (hordered : v.ordered = true) (place : Location) :
    Succeeds (read place v) := by
  induction h generalizing place with
  | @object fields k htype hkeys hvisible hrequired hneeded _ _ ihchildren ihslots =>
    obtain ⟨hsorted, hordered⟩ := Json.ordered_object.mp hordered
    have hchildren (items : List Json) (hitems : ("children", .array items) ∈ fields) (v : Json)
        (hv : v ∈ items) : ∀ place, Succeeds (read place v) :=
      ihchildren items hitems v hv (Json.ordered_array.mp (hordered _ hitems) v hv)
    obtain ⟨parts, hparts⟩ : Succeeds (readFields k place ⟨none, [], []⟩ fields) :=
      succeeds_readFields hkeys hchildren ((nodup_named_iff hsorted).mpr hvisible) fun _ _ => rfl
    obtain ⟨slots, hslots⟩ : Succeeds (readSlots k place fields) :=
      succeeds_readSlots (fun slot hslot v hv => ihslots slot hslot v hv (hordered _ hv)) hneeded
    have hchecked : checkRequired k place parts = .ok () := by
      refine checkRequired_eq_ok_iff.mpr fun p hp => ?_
      rw [(gathers_of_readFields hparts).contains_iff]
      exact .inl ((name_mem_keys_iff hp).mpr (hrequired p hp))
    refine ⟨⟨k, parts.id, parts.properties, parts.children ++ slots, place⟩, ?_⟩
    rw [read_object, (succeeds_readKind_iff hsorted).mpr htype]
    simp only [bind, Except.bind, hparts, hchecked, hslots]
    rfl

/-! ### What the reader returns -/

mutual

/-- What holds of an element if it holds of its children, holds of every element. -/
@[elab_as_elim]
theorem inductionOn {motive : Element → Prop} (e : Element)
    (step : ∀ e, (∀ c ∈ e.children, motive c) → motive e) : motive e := by
  cases e with
  | mk kind id properties children place => exact step _ (forall_of_step children step)

theorem forall_of_step {motive : Element → Prop} (es : List Element)
    (step : ∀ e, (∀ c ∈ e.children, motive c) → motive e) : ∀ e ∈ es, motive e := by
  cases es with
  | nil => exact forall_mem_nil motive
  | cons e es =>
    exact forall_mem_cons.mpr ⟨inductionOn e step, forall_of_step es step⟩

end

theorem mem_walkAll {d : Element} {es : List Element} :
    d ∈ walkAll es ↔ ∃ e ∈ es, d ∈ e.walk := by
  induction es with
  | nil => simp [walkAll]
  | cons e es ih => simp [walkAll, ih]

theorem forall_mem_walk {Q : Element → Prop} {e : Element} :
    (∀ d ∈ e.walk, Q d) ↔ Q e ∧ ∀ c ∈ e.children, ∀ d ∈ c.walk, Q d := by
  obtain ⟨k, id, properties, children, place⟩ := e
  simp only [walk, forall_mem_cons, mem_walkAll]
  refine and_congr_right fun _ => ⟨fun h c hc d hd => h d ⟨c, hc, hd⟩, ?_⟩
  rintro h d ⟨c, hc, hd⟩
  exact h c hc d hd

/-- The items under `children` and where they stand. -/
def listed (place : Location) (fields : List (String × Json)) : List (Location × Json) :=
  match Table.get? fields "children" with
  | some (.array items) => (place.field "children").numbered 0 items
  | _ => []

/-- The values in the slots of a kind and where they stand. -/
def slotted (k : Kind) (place : Location) (fields : List (String × Json)) : List (Location × Json) :=
  k.slots.filterMap fun slot => (Table.get? fields slot).map (place.field slot, ·)

/-- The values that the children of an element are read from, and where they stand. -/
def sources (k : Kind) (place : Location) (fields : List (String × Json)) : List (Location × Json) :=
  listed place fields ++ slotted k place fields

section Returning

variable {es : List Element} {e : Element} {s : Location × Json}

theorem mem_listed : s ∈ listed place fields ↔
    ∃ items, Table.get? fields "children" = some (.array items) ∧
      s ∈ (place.field "children").numbered 0 items := by
  unfold listed
  split
  · rename_i items hitems
    simp [hitems]
  · rename_i hother
    refine iff_of_false not_mem_nil ?_
    rintro ⟨items, hitems, -⟩
    exact hother items hitems

theorem mem_slotted : s ∈ slotted k place fields ↔
    ∃ slot ∈ k.slots, ∃ v, Table.get? fields slot = some v ∧ (place.field slot, v) = s := by
  simp only [slotted, mem_filterMap, Option.map_eq_some_iff]

theorem ordered_of_mem_sources (hordered : (Json.object fields).ordered = true)
    (hs : s ∈ sources k place fields) : s.2.ordered = true := by
  have hfields := (Json.ordered_object.mp hordered).2
  rcases mem_append.mp hs with hs | hs
  · obtain ⟨items, hitems, hs⟩ := mem_listed.mp hs
    obtain ⟨⟨v, i⟩, hv, rfl⟩ := mem_map.mp hs
    exact Json.ordered_array.mp (hfields _ (Table.mem_of_get? hitems)) v (fst_mem_of_mem_zipIdx hv)
  · obtain ⟨slot, -, v, hv, rfl⟩ := mem_slotted.mp hs
    exact hfields _ (Table.mem_of_get? hv)

/-- What is read of an object: its kind, its keys in order, and the elements in its slots. -/
theorem parts_of_read (h : read place v = .ok e) :
    ∃ k fields parts slots, v = .object fields ∧ readKind place fields = .ok k ∧
      readFields k place ⟨none, [], []⟩ fields = .ok parts ∧
      (∀ p ∈ k.required, parts.properties.contains p = true) ∧
      readSlots k place fields = .ok slots ∧
      e = ⟨k, parts.id, parts.properties, parts.children ++ slots, place⟩ := by
  cases v with
  | object fields =>
    rw [read_object] at h
    obtain ⟨k, hk, h⟩ := exists_of_bind_eq_ok h
    obtain ⟨parts, hparts, h⟩ := exists_of_bind_eq_ok h
    obtain ⟨⟨⟩, hrequired, h⟩ := exists_of_bind_eq_ok h
    obtain ⟨slots, hslots, h⟩ := exists_of_bind_eq_ok h
    cases h
    exact ⟨k, fields, parts, slots, rfl, hk, hparts, checkRequired_eq_ok_iff.mp hrequired, hslots, rfl⟩
  | _ => cases h

theorem forall₂_of_readItems {i : Nat} {vs : List Json} (h : readItems place i vs = .ok es) :
    Forall₂ (fun s e => read s.1 s.2 = .ok e) (place.numbered i vs) es :=
  Location.forall₂_numbered (fun _ => by rw [readItems]) (fun _ _ _ => by rw [readItems]) h

/-- A slot is read from what stands under its key; a needed one is there. -/
theorem forall₂_of_readSlot (h : readSlot k place slot needed fields = .ok es) :
    (needed = true → slot ∈ fields.map Prod.fst ∧ es ≠ []) ∧
    Forall₂ (fun s e => read s.1 s.2 = .ok e)
      ((Table.get? fields slot).map (place.field slot, ·)).toList es := by
  induction fields with
  | nil =>
    rw [readSlot] at h
    split at h
    · cases h
    · rename_i hneeded
      cases h
      exact ⟨fun h => absurd h hneeded, .nil⟩
  | cons f fields ih =>
    obtain ⟨key, v⟩ := f
    rw [readSlot] at h
    split at h
    · rename_i hkey
      subst hkey
      obtain ⟨e, he, heq⟩ := exists_of_map_eq_ok h
      subst heq
      rw [Table.get?_cons_self]
      exact ⟨fun _ => ⟨mem_cons_self, cons_ne_nil _ _⟩, .cons he .nil⟩
    · rename_i hkey
      rw [Table.get?_cons_of_ne (Ne.symm hkey)]
      obtain ⟨hneeded, hes⟩ := ih h
      exact ⟨fun hn => ⟨.tail _ (hneeded hn).1, (hneeded hn).2⟩, hes⟩

theorem length_of_readSlot
    (h : readSlot k place slot needed fields = .ok es) :
    es.length ≤ 1 ∧ (needed = true → es.length = 1) := by
  obtain ⟨hneeded, hes⟩ := forall₂_of_readSlot h
  have hmost : es.length ≤ 1 := by
    rw [← hes.length_eq, Option.length_toList]
    split <;> omega
  refine ⟨hmost, fun h => ?_⟩
  have hpos := length_pos_iff.mpr (hneeded h).2
  omega

/-- The elements in the slots are read in order, as many as the kind admits. -/
theorem forall₂_of_readSlots (h : readSlots k place fields = .ok es) :
    (k.isContainer = false → k.admitsChildren es.length = true) ∧
    (∀ slot ∈ k.requiredSlots, slot ∈ fields.map Prod.fst) ∧
    Forall₂ (fun s e => read s.1 s.2 = .ok e) (slotted k place fields) es := by
  rw [slotted, filterMap_eq_flatMap_toList]
  cases k with
  | forEach =>
    obtain ⟨hneeded, hes⟩ := forall₂_of_readSlot h
    exact ⟨fun _ => by simp [Kind.admitsChildren, (length_of_readSlot h).2 rfl],
      forall_mem_singleton.mpr (hneeded rfl).1, by simpa [Kind.slots] using hes⟩
  | conditional =>
    obtain ⟨first, hfirst, h⟩ := exists_of_bind_eq_ok h
    obtain ⟨second, hsecond, h⟩ := exists_of_bind_eq_ok h
    cases h
    obtain ⟨hneeded, hes⟩ := forall₂_of_readSlot hfirst
    refine ⟨fun _ => ?_, forall_mem_singleton.mpr (hneeded rfl).1, ?_⟩
    · have hmost := (length_of_readSlot hsecond).1
      simp only [Kind.admitsChildren, length_append, (length_of_readSlot hfirst).2 rfl,
        Bool.or_eq_true, beq_iff_eq]
      omega
    · simpa [Kind.slots] using rel_append hes (forall₂_of_readSlot hsecond).2
  | _ =>
    cases h
    exact ⟨by simp [Kind.isContainer, Kind.admitsChildren], forall_mem_nil _, .nil⟩

/-- The children are read, in order, from where the object has them. -/
theorem forall₂_children_of_read (hsorted : Table.Sorted fields)
    (h : read place (.object fields) = .ok e) :
    Forall₂ (fun s c => read s.1 s.2 = .ok c) (sources e.kind place fields) e.children := by
  obtain ⟨k, _, parts, slots, ⟨⟩, -, hparts, -, hslots, rfl⟩ := parts_of_read h
  refine rel_append ?_ (forall₂_of_readSlots hslots).2.2
  unfold listed
  obtain ⟨hnone, hnil⟩ | ⟨-, items, hmem, hitems⟩ := (gathers_of_readFields hparts).children
  · rw [Table.get?_eq_none_of_ne fun f hf heq => hnone (mem_map.mpr ⟨f, hf, heq⟩), hnil]
    exact .nil
  · rw [hsorted.get?_of_mem hmem]
    exact forall₂_of_readItems hitems

theorem written_of_read (hordered : v.ordered = true) (h : read place v = .ok e) : Written v := by
  induction e using inductionOn generalizing place v with
  | step e ih =>
    obtain ⟨k, fields, parts, slots, rfl, hkind, hparts, hrequired, hslots, rfl⟩ := parts_of_read h
    obtain ⟨hsorted, -⟩ := Json.ordered_object.mp hordered
    have hgathers := gathers_of_readFields hparts
    have hbelow {s : Location × Json} (hs : s ∈ sources k place fields) : Written s.2 := by
      obtain ⟨c, hc, hread⟩ := exists_mem_of_forall₂ (forall₂_children_of_read hsorted h).flip hs
      exact ih c hc (ordered_of_mem_sources hordered hs) hread
    refine .object ((succeeds_readKind_iff hsorted).mp hkind) hgathers.takes
      ((nodup_named_iff hsorted).mp hgathers.nodup) (fun p hp => (name_mem_keys_iff hp).mp ?_)
      (forall₂_of_readSlots hslots).2.1 (fun items hitems v hv => ?_) fun slot hslot v hv => ?_
    · exact ((hgathers.contains_iff p).mp (hrequired p hp)).resolve_right nofun
    · obtain ⟨i, hi⟩ := mem_iff_getElem?.mp hv
      exact hbelow (mem_append_left _ (mem_listed.mpr ⟨items, hsorted.get?_of_mem hitems,
        mem_map.mpr ⟨(v, i), mk_mem_zipIdx_iff_getElem?.mpr hi, rfl⟩⟩))
    · exact hbelow (mem_append_right _ (mem_slotted.mpr
        ⟨slot, hslot, v, hsorted.get?_of_mem hv, rfl⟩))

theorem admitsChildren_of_isContainer (h : k.isContainer = true) (n : Nat) :
    k.admitsChildren n = true := by
  cases k <;> first | rfl | cases h

/-- What the reader of values ensures of the value of each property. -/
def Ensured (P : Property → PropertyValue → Prop) : Prop :=
  ∀ p place v, Yields (P p) (PropertyValue.read p place v)

variable (P : Property → PropertyValue → Prop)

/-- An element formed by a condition with all below it. -/
def Sound (e : Element) : Prop := ∀ d ∈ e.walk, d.FormedBy P

variable {P}

/-- What the reader of elements returns is formed throughout by what the reader of values ensures. -/
theorem sound_of_read (hP : Ensured P) (h : read place v = .ok e) : e.Sound P := by
  induction e using inductionOn generalizing place v with
  | step e ih =>
    obtain ⟨k, fields, parts, slots, rfl, -, hparts, hrequired, hslots, rfl⟩ := parts_of_read h
    have hgathers := gathers_of_readFields hparts
    obtain ⟨hcount, -, hslots⟩ := forall₂_of_readSlots hslots
    have hentries (f : Property × PropertyValue) (hf : f ∈ parts.properties) :
        k.allows f.1 = true ∧ P f.1 f.2 := by
      obtain hnone | ⟨hallows, key, v, -, -, hread⟩ := hgathers.entries f hf
      · cases hnone
      · exact ⟨hallows, (hP f.1 _ v).of_ok hread⟩
    refine forall_mem_walk.mpr ⟨⟨?_, fun p value hf => (hentries _ hf).1,
      fun p hp => Option.isSome_iff_exists.mp (hrequired p hp), hgathers.sorted Table.sorted_nil,
      fun p value hf => (hentries _ hf).2⟩, fun c hc => ?_⟩
    · cases hk : k.isContainer with
      | true => exact admitsChildren_of_isContainer hk _
      | false =>
        obtain ⟨-, hnone⟩ | ⟨hcontainer, -⟩ := hgathers.children
        · simpa [hnone] using hcount hk
        · rw [hk] at hcontainer
          cases hcontainer
    · obtain ⟨s, hs⟩ : ∃ s : Location × Json, read s.1 s.2 = .ok c := by
        rcases mem_append.mp hc with hc | hc
        · obtain ⟨-, hnone⟩ | ⟨-, items, -, hitems⟩ := hgathers.children
          · rw [hnone] at hc
            cases hc
          · obtain ⟨s, -, hs⟩ := exists_mem_of_forall₂ (forall₂_of_readItems hitems) hc
            exact ⟨s, hs⟩
        · obtain ⟨s, -, hs⟩ := exists_mem_of_forall₂ hslots hc
          exact ⟨s, hs⟩
      exact ih c hc hs

end Returning

/-- The reader accepts exactly the values that describe an element, and what it returns is well
formed throughout. -/
theorem read_exact (place : Location) (v : Json) (h : v.ordered = true) :
    (Succeeds (read place v) ↔ Written v) ∧
      ∀ e, read place v = .ok e → ∀ d ∈ e.walk, d.WellFormed := by
  refine ⟨⟨?_, fun hv => succeeds_read_of_written hv h place⟩, fun e he => ?_⟩
  · rintro ⟨e, he⟩
    exact written_of_read h he
  · exact sound_of_read PropertyValue.yields_read he

/-- A list with a template is described as it should be, but not with both names of `visible`. -/
theorem read_exact_list : ∃ list twice : Json, list.ordered = true ∧ twice.ordered = true ∧
    Written list ∧ ¬Written twice := by
  let entry : Json := .object
    [("text", .string "\x7b\x7btitle\x7d\x7d of \x7b\x7bsize.width\x7d\x7d"),
     ("type", .string "label")]
  let there : Json := .array [.string "has", .string "data.rows"]
  let list : Json := .object [("id", .string "rows"), ("itemTemplate", entry),
    ("items", .string "data.rows"), ("limit", .number (.integer 3)), ("type", .string "forEach"),
    ("visibleIf", there)]
  let twice : Json := .object [("type", .string "spacer"), ("visible", there),
    ("visibleIf", there)]
  have hlist : list.ordered = true := by decide +kernel
  have htwice : twice.ordered = true := by decide +kernel
  refine ⟨list, twice, hlist, htwice, ?_, fun h => ?_⟩
  · have hread : Succeeds (read .root list) := by decide +kernel
    exact (read_exact .root list hlist).1.mp hread
  · have hread : ¬Succeeds (read .root twice) := by decide +kernel
    exact hread ((read_exact .root twice htwice).1.mpr h)

end Element

end Widgetry
