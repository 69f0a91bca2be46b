import Widgetry.Proofs.Alignment
import Widgetry.Proofs.Element.Acceptance
import Widgetry.Proofs.Expr.RoundTrip

/-!
# Where elements and expressions come from

Elements and expressions carry the locations of what they were read from. The elements below an object
stand under its keys; each of them is found there, and so, step by step, is all that is below. No two
elements stand at one location, as those below an object are apart from each other.
-/

namespace Widgetry

open List

variable {place : Location} {i : Nat} {vs : List Json} {document v : Json} {e : Expr} {p : Property}
  {fields : List (String × Json)}

/-! ### Expressions -/

namespace Expr

/-- Each node is found at its location, and what stands there reads as the node. -/
theorem found_of_node? {n : Expr} {positions : List Nat} (hfind : place.find? document = some v)
    (h : read place v = .ok e) (hn : e.node? positions = some n) :
    ∃ w, n.place.find? document = some w ∧ read n.place w = .ok n := by
  induction positions generalizing place v e with
  | nil =>
    cases hn
    rw [place_of_read h]
    exact ⟨v, hfind, h⟩
  | cons i positions ih =>
    cases e with
    | op p o args =>
      cases i with
      | zero => cases hn
      | succ i =>
        obtain ⟨a, ha, hn⟩ := Option.bind_eq_some_iff.mp hn
        obtain ⟨rfl, name, operands, rfl, -, hargs⟩ := readFrom_of_read h
        obtain ⟨s, hs, hread⟩ :=
          exists_mem_of_forall₂ (forall₂_of_readOperands hargs) (mem_of_getElem? ha)
        exact ih (Location.find?_of_mem_numbered [.string name] hfind hs) hread hn
    | _ => simp [node?] at hn

end Expr

namespace PropertyValue

/-- The nodes of a template stand where the text does. -/
theorem standsIn_of_ofTemplate {parts : List TemplatePart}
    (h : ofTemplate place parts = .expression e) : e.StandsIn (· = place) := by
  unfold ofTemplate at h
  split at h <;> cases h
  refine Expr.standsIn_op_iff.mpr ⟨rfl, forall_mem_map.mpr fun part _ => ?_⟩
  cases part with
  | text s => exact Expr.standsIn_leaf rfl fun _ _ => by simp [Expr.node?]
  | placeholder b =>
    refine Expr.standsIn_op_iff.mpr ⟨rfl, forall_mem_singleton.mpr ?_⟩
    exact Expr.standsIn_leaf rfl fun _ _ => by simp [Expr.node?]

/-- An expression is written as an array or as a template. -/
theorem written_of_read (h : read p place v = .ok (.expression e)) :
    (∃ s, v = .string s) ∧ e.StandsIn (· = place) ∨
      ∃ items, v = .array items ∧ Expr.read place v = .ok e := by
  obtain ⟨type, -, h⟩ | ⟨b, hvalue, -⟩ | ⟨l, hvalue⟩ := cases_of_read h
  · obtain ⟨l, -, hvalue⟩ | ⟨s, hv, ⟨key, hvalue⟩ | ⟨b, -, hvalue⟩ | ⟨-, parts, -, hvalue⟩⟩ |
      ⟨items, e, hv, he, hvalue⟩ := cases_of_readValue h
    · cases hvalue
    · cases hvalue
    · cases hvalue
    · exact .inl ⟨⟨s, hv⟩, standsIn_of_ofTemplate hvalue.symm⟩
    · cases hvalue
      exact .inr ⟨items, hv, he⟩
  · cases hvalue
  · cases hvalue

end PropertyValue

/-! ### Elements -/

namespace Element

variable {value : PropertyValue} {e : Element}

theorem place_of_read (h : read place v = .ok e) : e.place = place := by
  obtain ⟨_, _, _, _, -, -, -, -, -, rfl⟩ := parts_of_read h
  rfl

/-! ### Elements below an object -/

section Below

variable {k : Kind} {place : Location} {fields : List (String × Json)} {s : Location × Json}

theorem find?_of_mem_sources (hfind : place.find? document = some (.object fields))
    (hs : s ∈ sources k place fields) : s.1.find? document = some s.2 := by
  rcases mem_append.mp hs with hs | hs
  · obtain ⟨items, hitems, hs⟩ := mem_listed.mp hs
    refine Location.find?_of_mem_numbered [] ?_ hs
    rw [Location.find?_field hfind, hitems, nil_append]
  · obtain ⟨slot, -, v, hv, rfl⟩ := mem_slotted.mp hs
    rw [Location.find?_field hfind, hv]

theorem steps_of_mem_listed (hs : s ∈ listed place fields) :
    ∃ i, s.1.steps = place.steps ++ [.field "children", .index i] := by
  obtain ⟨items, -, hs⟩ := mem_listed.mp hs
  obtain ⟨⟨v, i⟩, -, rfl⟩ := mem_map.mp hs
  exact ⟨i, by simp [Location.field, Location.index]⟩

theorem steps_of_mem_slotted (hs : s ∈ slotted k place fields) :
    ∃ slot ∈ k.slots, s.1.steps = place.steps ++ [.field slot] := by
  obtain ⟨slot, hslot, v, -, rfl⟩ := mem_slotted.mp hs
  exact ⟨slot, hslot, rfl⟩

theorem steps_of_mem_sources (hs : s ∈ sources k place fields) :
    ∃ rest, rest ≠ [] ∧ s.1.steps = place.steps ++ rest := by
  rcases mem_append.mp hs with hs | hs
  · obtain ⟨i, hi⟩ := steps_of_mem_listed hs
    exact ⟨_, cons_ne_nil _ _, hi⟩
  · obtain ⟨slot, -, hslot⟩ := steps_of_mem_slotted hs
    exact ⟨_, cons_ne_nil _ _, hslot⟩

theorem pairwise_slotted (k : Kind) (place : Location) (fields : List (String × Json)) :
    (slotted k place fields).Pairwise fun s t => s.1.Apart t.1 := by
  have hslots : k.slots.Nodup := by cases k <;> decide
  refine pairwise_filterMap.mpr (hslots.imp ?_)
  intro a b hne s hs t ht
  obtain ⟨v, -, rfl⟩ := Option.map_eq_some_iff.mp hs
  obtain ⟨w, -, rfl⟩ := Option.map_eq_some_iff.mp ht
  exact place.apart_field hne

theorem pairwise_sources (k : Kind) (place : Location) (fields : List (String × Json)) :
    (sources k place fields).Pairwise fun s t => s.1.Apart t.1 := by
  refine pairwise_append.mpr ⟨?_, pairwise_slotted k place fields, ?_⟩
  · unfold listed
    split
    · exact Location.pairwise_numbered _ 0 _
    · exact .nil
  · intro s hs t ht
    obtain ⟨i, hi⟩ := steps_of_mem_listed hs
    obtain ⟨slot, hslot, ht⟩ := steps_of_mem_slotted ht
    have hne : "children" ≠ slot := by
      rintro rfl
      revert hslot
      cases k <;> decide
    rw [Location.Apart, hi, ht]
    exact Location.apart_of_ne place.steps (by simpa using hne) _ _

/-- The children stand, in order, where the object has them. -/
theorem places_children_of_read (hsorted : Table.Sorted fields)
    (h : read place (.object fields) = .ok e) :
    e.children.map Element.place = (sources e.kind place fields).map Prod.fst := by
  have hplaces := (forall₂_children_of_read hsorted h).imp fun s c hc => (place_of_read hc).symm
  rw [eq_comm, ← forall₂_eq_eq_eq, forall₂_map_left_iff, forall₂_map_right_iff]
  exact hplaces

end Below

/-! ### Elements of a document -/

/-- At the location of an element there is an object that reads as the element. -/
def Found (document : Json) (e : Element) : Prop :=
  ∃ fields, e.place.find? document = some (.object fields) ∧
    (Json.object fields).ordered = true ∧ read e.place (.object fields) = .ok e

theorem found_of_read (hfind : place.find? document = some v) (hordered : v.ordered = true)
    (h : read place v = .ok e) : e.Found document := by
  obtain ⟨_, fields, _, _, rfl, -⟩ := parts_of_read h
  obtain rfl := place_of_read h
  exact ⟨fields, hfind, hordered, h⟩

theorem walkAll_eq_flatMap (es : List Element) : walkAll es = es.flatMap walk := by
  induction es with
  | nil => rfl
  | cons e es ih => rw [walkAll, ih, flatMap_cons]

theorem walk_eq (e : Element) : e.walk = e :: e.children.flatMap walk := by
  rw [← walkAll_eq_flatMap]
  cases e
  rfl

namespace Found

variable {document : Json} {e c : Element}

section

variable (h : e.Found document)

include h

theorem source (hc : c ∈ e.children) :
    ∃ fields, e.place.find? document = some (.object fields) ∧
      (Json.object fields).ordered = true ∧
      ∃ s ∈ sources e.kind e.place fields, read s.1 s.2 = .ok c := by
  obtain ⟨fields, hfind, hordered, hread⟩ := h
  have hchildren := forall₂_children_of_read (Json.ordered_object.mp hordered).1 hread
  exact ⟨fields, hfind, hordered, exists_mem_of_forall₂ hchildren hc⟩

theorem child (hc : c ∈ e.children) : c.Found document := by
  obtain ⟨fields, hfind, hordered, s, hs, hread⟩ := h.source hc
  exact found_of_read (find?_of_mem_sources hfind hs) (ordered_of_mem_sources hordered hs) hread

theorem steps_child (hc : c ∈ e.children) :
    ∃ rest, rest ≠ [] ∧ c.place.steps = e.place.steps ++ rest := by
  obtain ⟨fields, -, -, s, hs, hread⟩ := h.source hc
  rw [place_of_read hread]
  exact steps_of_mem_sources hs

theorem pairwise_children :
    e.children.Pairwise fun a b => a.place.Apart b.place := by
  obtain ⟨fields, -, hordered, hread⟩ := h
  rw [← pairwise_map, places_children_of_read (Json.ordered_object.mp hordered).1 hread,
    pairwise_map]
  exact pairwise_sources e.kind e.place fields

theorem of_mem_walk : ∀ d ∈ e.walk, d.Found document := by
  induction e using inductionOn with
  | step e ih => exact forall_mem_walk.mpr ⟨h, fun c hc => ih c hc (h.child hc)⟩

theorem prefix_of_mem_walk : ∀ d ∈ e.walk, e.place.steps <+: d.place.steps := by
  induction e using inductionOn with
  | step e ih =>
    refine forall_mem_walk.mpr ⟨prefix_rfl, fun c hc d hd => ?_⟩
    obtain ⟨rest, -, hsteps⟩ := h.steps_child hc
    exact (hsteps ▸ prefix_append _ _ : e.place.steps <+: c.place.steps).trans
      (ih c hc (h.child hc) d hd)

theorem place_ne_of_below (hc : c ∈ e.children) {d : Element} (hd : d ∈ c.walk) :
    d.place ≠ e.place := by
  intro heq
  obtain ⟨rest, hrest, hsteps⟩ := h.steps_child hc
  have hlength := ((h.child hc).prefix_of_mem_walk d hd).length_le
  have hpos := length_pos_iff.mpr hrest
  rw [heq, hsteps, length_append] at hlength
  omega

theorem nodup_walk : (e.walk.map Element.place).Nodup := by
  induction e using inductionOn with
  | step e ih =>
    rw [walk_eq, map_cons, nodup_cons]
    constructor
    · intro hmem
      obtain ⟨d, hd, heq⟩ := mem_map.mp hmem
      obtain ⟨c, hc, hd⟩ := mem_flatMap.mp hd
      exact h.place_ne_of_below hc hd heq
    · rw [List.Nodup, pairwise_map, pairwise_flatMap]
      refine ⟨fun c hc => pairwise_map.mp (ih c hc (h.child hc)), ?_⟩
      -- what is below two children is apart as they are
      refine h.pairwise_children.imp_of_mem ?_
      intro a b ha hb hapart x hx y hy
      exact hapart.ne ((h.child ha).prefix_of_mem_walk x hx) ((h.child hb).prefix_of_mem_walk y hy)

end

end Found

section

variable (hfind : place.find? document = some (.object fields)) (hsorted : Table.Sorted fields)
  (h : read place (.object fields) = .ok e)

include hfind hsorted h

theorem found_of_property (hp : (p, value) ∈ e.properties) :
    ∃ key v, p.IsNamed key ∧ (place.field key).find? document = some v ∧
      PropertyValue.read p (place.field key) v = .ok value := by
  obtain ⟨_, _, parts, slots, ⟨⟩, -, hparts, -, -, rfl⟩ := parts_of_read h
  obtain hnone | ⟨-, key, v, hv, hnamed, hvalue⟩ := (gathers_of_readFields hparts).entries _ hp
  · cases hnone
  · refine ⟨key, v, hnamed, ?_, hvalue⟩
    rw [Location.find?_field hfind, hsorted.get?_of_mem hv]

/-- A property is found under a key that names it, and each node of an expression in an array at its
own location. -/
theorem expression_of_read {x : Expr} (hx : e.get? p = some (.expression x)) :
    ∃ key v, p.IsNamed key ∧ x.place = place.field key ∧ x.place.find? document = some v ∧
      ((∃ s, v = .string s) ∨ ∃ items, v = .array items ∧
        ∀ positions n, x.node? positions = some n → n.place = x.place.indices positions ∧
          ∃ w, n.place.find? document = some w ∧ Expr.read n.place w = .ok n) := by
  obtain ⟨key, v, hnamed, hfound, hvalue⟩ :=
    found_of_property hfind hsorted h (Table.mem_of_get? hx)
  obtain ⟨hstring, hstands⟩ | ⟨items, hitems, hread⟩ := PropertyValue.written_of_read hvalue
  · have hplace : x.place = place.field key := hstands.place
    exact ⟨key, v, hnamed, hplace, hplace ▸ hfound, .inl hstring⟩
  · have hplace := Expr.place_of_read hread
    refine ⟨key, v, hnamed, hplace, hplace ▸ hfound, .inr ⟨items, hitems, fun positions n hn =>
      ⟨?_, Expr.found_of_node? hfound hread hn⟩⟩⟩
    rw [hplace]
    refine Expr.place_of_node?_relocate (e := x) ?_
    rwa [(Expr.relocate_of_read hread).1]

end

end Element

/-! ### Layouts -/

namespace Layout

theorem yields_readField (draft : Draft) (key : String) (v : Json) :
    Yields (fun draft' => draft'.root = draft.root ∨ key = "layout" ∧ draft'.root = some v)
      (readField draft (key, v)) := by
  have hkept {α : Type} (x : Except Json.ShapeError α) {f : α → Draft}
      (hf : ∀ a, (f a).root = draft.root) :
      Yields (fun draft' => draft'.root = draft.root ∨ key = "layout" ∧ draft'.root = some v)
        (x.map f) := Meets.map (yields_true x) fun a _ => .inl (hf a)
  unfold readField
  simp only
  split
  · exact hkept _ fun _ => rfl
  · split
    · exact hkept _ fun _ => rfl
    · split
      · exact hkept _ fun _ => rfl
      · split
        · exact hkept _ fun _ => rfl
        · split
          · exact hkept _ fun _ => rfl
          · split
            · rename_i hkey
              exact .inr ⟨hkey, rfl⟩
            · exact yields_error _ _

theorem root_of_foldlM {draft draft' : Draft} (h : fields.foldlM readField draft = .ok draft') :
    draft'.root = draft.root ∨ ∃ v, ("layout", v) ∈ fields ∧ draft'.root = some v := by
  induction fields generalizing draft with
  | nil =>
    cases h
    exact .inl rfl
  | cons f fields ih =>
    obtain ⟨key, v⟩ := f
    rw [foldlM_cons] at h
    obtain ⟨draft₁, hfield, h⟩ := exists_of_bind_eq_ok h
    obtain hroot | ⟨w, hw, hroot⟩ := ih h
    · obtain hsame | ⟨rfl, hv⟩ := (yields_readField draft key v).of_ok hfield
      · exact .inl (hroot.trans hsame)
      · exact .inr ⟨v, mem_cons_self, hroot.trans hv⟩
    · exact .inr ⟨w, .tail _ hw, hroot⟩

theorem root_of_read {l : Layout} (h : read (.object fields) = .ok l) :
    ∃ v, ("layout", v) ∈ fields ∧ Element.read (Location.root.field "layout") v = .ok l.root := by
  obtain ⟨-, -, draft, hdraft, hroot⟩ := checked_of_read h
  rw [readShape] at hdraft
  obtain ⟨draft, hfields, hdraft⟩ := exists_of_bind_eq_ok hdraft
  obtain ⟨name, -, hdraft⟩ := exists_of_bind_eq_ok hdraft
  obtain ⟨v, hv, hdraft⟩ := exists_of_bind_eq_ok hdraft
  cases hdraft
  obtain hnone | ⟨v, hmem, hsome⟩ := root_of_foldlM hfields
  · rw [hnone] at hv
    cases hv
  · rw [hsome] at hroot
    exact ⟨v, hmem, hroot⟩

theorem found_of_read {fields : List (String × Json)} {l : Layout}
    (hordered : (Json.object fields).ordered = true) (h : read (.object fields) = .ok l) :
    l.root.Found (.object fields) := by
  obtain ⟨hsorted, hvalues⟩ := Json.ordered_object.mp hordered
  obtain ⟨v, hv, hroot⟩ := root_of_read h
  refine Element.found_of_read ?_ (hvalues _ hv) hroot
  rw [Location.find?_field (Location.find?_root _), hsorted.get?_of_mem hv]

/-- Locations lead to what was read: each element stands at a location of its own, where the document
has the object it was read from with the children below it in order, and so does each node of an
expression in an array. -/
theorem locations_of_read {fields : List (String × Json)} {l : Layout}
    (hordered : (Json.object fields).ordered = true) (h : read (.object fields) = .ok l) :
    (l.root.walk.map Element.place).Nodup ∧
    ∀ d ∈ l.root.walk, ∃ fs, d.place.find? (.object fields) = some (.object fs) ∧
      Table.get? fs "type" = some (.string d.kind.name) ∧
      Element.read d.place (.object fs) = .ok d ∧
      d.children.map Element.place = (Element.sources d.kind d.place fs).map Prod.fst ∧
      ∀ p x, d.get? p = some (.expression x) →
        ∃ key v, p.IsNamed key ∧ x.place = d.place.field key ∧
          x.place.find? (.object fields) = some v ∧
          ((∃ s, v = .string s) ∨ ∃ items, v = .array items ∧
            ∀ positions n, x.node? positions = some n → n.place = x.place.indices positions ∧
              ∃ w, n.place.find? (.object fields) = some w ∧ Expr.read n.place w = .ok n) := by
  have hfound := found_of_read hordered h
  refine ⟨hfound.nodup_walk, fun d hd => ?_⟩
  obtain ⟨fs, hfs, hordered, hread⟩ := hfound.of_mem_walk d hd
  have hsorted := (Json.ordered_object.mp hordered).1
  refine ⟨fs, hfs, ?_, hread, Element.places_children_of_read hsorted hread, fun p x hx => ?_⟩
  · obtain ⟨k, _, _, _, ⟨⟩, hkind, -, -, -, heq⟩ := Element.parts_of_read hread
    rw [show d.kind = k from congrArg Element.kind heq]
    exact hsorted.get?_of_mem ((Element.succeeds_readKind_iff hsorted).mp hkind)
  · exact Element.expression_of_read hfs hsorted hread hx

/-- A template in a loop, two branches and the operand of their condition are found where they are. -/
theorem locations_of_read_rows : ∃ fields l, (Json.object fields).ordered = true ∧
    read (.object fields) = .ok l ∧
    l.root.walk.map (·.place.render) =
      ["$.layout", "$.layout.children[0]", "$.layout.children[0].itemTemplate",
        "$.layout.children[1]", "$.layout.children[1].then", "$.layout.children[1].else"] ∧
    (l.root.walk.map Element.place).Nodup ∧
    (∀ d ∈ l.root.walk, ∃ fs, d.place.find? (.object fields) = some (.object fs) ∧
      Table.get? fs "type" = some (.string d.kind.name)) ∧
    ∃ d ∈ l.root.walk, ∃ x n w, d.get? .condition = some (.expression x) ∧
      x.node? [1] = some n ∧ n.place.find? (.object fields) = some w ∧
      Expr.read n.place w = .ok n := by
  let fields : List (String × Json) :=
    [("layout", .object
       [("children", .array
         [.object
           [("itemTemplate", .object [("text", .string "item.title"), ("type", .string "label")]),
            ("items", .string "data.rows"), ("type", .string "forEach")],
          .object
           [("condition", .array [.string "!", .array [.string "has", .string "data.rows"]]),
            ("else", .object [("type", .string "spacer")]),
            ("then", .object [("text", .string "none"), ("type", .string "label")]),
            ("type", .string "conditional")]]),
        ("type", .string "column")]),
     ("name", .string "Rows"),
     ("supportedSizes", .array [.object [("height", .number (.integer 40)),
       ("id", .string "small"), ("width", .number (.integer 80))]])]
  let place : Location := ⟨[.field "layout", .field "children", .index 1, .field "condition"]⟩
  have hordered : (Json.object fields).ordered = true := by decide +kernel
  have hlayout : ((read (.object fields)).toOption.map fun l => (l.root.walk.map (·.place.render),
      l.root.walk.any fun d => (d.get? .condition).any fun v =>
        PropertyValue.casesOn v (fun _ => false) (fun _ => false) (fun _ => false)
          fun x => x.place == place && (x.node? [1]).isSome)) =
      some (["$.layout", "$.layout.children[0]", "$.layout.children[0].itemTemplate",
        "$.layout.children[1]", "$.layout.children[1].then", "$.layout.children[1].else"], true) := by
    decide +kernel
  obtain ⟨l, hread, hseen⟩ := exists_of_toOption_map hlayout
  obtain ⟨hplaces, hcondition⟩ := Prod.mk.inj hseen
  obtain ⟨hnodup, hfound⟩ := locations_of_read hordered hread
  refine ⟨fields, l, hordered, hread, hplaces, hnodup, fun d hd => ?_, ?_⟩
  · obtain ⟨fs, hfind, htype, -⟩ := hfound d hd
    exact ⟨fs, hfind, htype⟩
  · obtain ⟨d, hd, hcondition⟩ := any_eq_true.mp hcondition
    obtain ⟨v, hv, hcondition⟩ := (Option.any_eq_true _ _).mp hcondition
    cases v with
    | expression x =>
      obtain ⟨hplace, hnode⟩ := Bool.and_eq_true_iff.mp hcondition
      obtain ⟨n, hn⟩ := Option.isSome_iff_exists.mp hnode
      obtain ⟨fs, -, -, -, -, hexpr⟩ := hfound d hd
      obtain ⟨key, v, -, -, hfind, ⟨s, rfl⟩ | ⟨items, rfl, hnodes⟩⟩ := hexpr .condition x hv
      · rw [beq_iff_eq.mp hplace] at hfind
        cases hfind
      · obtain ⟨-, w, hw⟩ := hnodes [1] n hn
        exact ⟨d, hd, x, n, w, hv, hn, hw⟩
    | _ => cases hcondition

end Layout

end Widgetry
