import Widgetry.Proofs.Context.Changes
import Widgetry.Proofs.Expr.Backend
import Widgetry.Proofs.Expr.Dependence
import Widgetry.Proofs.Expr.Checking
import Widgetry.Proofs.View.Emission

/-!
# What closures read

A closure depends on the places of the bindings that its source names, in source order. Inside a loop
the item at hand stands at a path of the data: a closure made there gives in the whole context what the
closure of the same source, made at the top, gives where the data are the item.
-/

namespace Widgetry

open List

theorem Context.lookup?_settings (c : Context) (x : Json) (segments : List Segment) :
    c.lookup? ⟨.settings, segments⟩ = (⟨x, c.settings⟩ : Context).lookup? ⟨.settings, segments⟩ := by
  cases segments with
  | nil => rfl
  | cons s segments => cases s <;> rfl

namespace Binding

variable {item : List Segment} {b : Binding}

theorem absolute?_eq_none_iff : b.absolute? item = none ↔ b.scope = .size := by
  unfold absolute?
  cases b.scope <;> simp

theorem places_filter (item : List Segment) (bs : List Binding) :
    places item (bs.filter (·.scope ≠ .size)) = places item bs := by
  unfold places
  rw [filterMap_filter]
  refine filterMap_congr fun b _ => ?_
  by_cases hscope : b.scope = .size
  · simp [hscope, absolute?_eq_none_iff.mpr hscope]
  · simp [hscope]

theorem places_eq_nil_iff (item : List Segment) {bs : List Binding} :
    places item bs = [] ↔ ∀ b ∈ bs, b.scope = .size := by
  simp only [places, filterMap_eq_nil_iff, absolute?_eq_none_iff]

/-- Where the data are the item at hand, a binding finds what it finds below the item, unless it
starts from the data. -/
theorem found?_below (hb : b.scope ≠ .data) {c : Context} {x : Json} (hx : c.data.at? item = some x) :
    b.found? item c = b.found? [] ⟨x, c.settings⟩ := by
  unfold found? absolute?
  cases hscope : b.scope with
  | item =>
    have hat : c.data.at? (item ++ b.segments) = x.at? b.segments := by
      rw [Json.at?_append, hx, Option.bind_some]
    exact congrArg some hat
  | data => exact absurd hscope hb
  | settings => exact congrArg some (c.lookup?_settings x b.segments)
  | size => rfl

end Binding

/-! ### Dependencies in source order -/

theorem Term.Keeps.places_eq {named kept : List Binding} (h : Term.Keeps named kept)
    (item : List Segment) : Binding.places item kept = Binding.places item named := by
  rw [← Binding.places_filter, h, Binding.places_filter]

/-- Nothing is retained for a formula exactly if it depends on nothing. -/
theorem Build.retained_follow_eq_iff {names : List String} (hnames : names ≠ []) (s : Scene)
    (views : List Nat) (encoding : Encoding) (f : Formula) (c : Canvas) :
    ((follow s views names encoding f).run c).2.retained = c.retained ↔ f.deps = [] := by
  rw [emits_follow s views names encoding f c]
  have hnames : names.isEmpty = false := by simpa using hnames
  simp only [Canvas.add, Trace.strokes, filterMap_cons, filterMap_nil, Stroke.bound?,
    hnames, Bool.false_or]
  cases f.deps with
  | nil => simp
  | cons p ps =>
    refine iff_of_false (fun h => ?_) (cons_ne_nil p ps)
    have hlength := congrArg (fun r : Retained => r.properties.length) h
    simp at hlength

namespace Closure

variable {env : Env} {expected : ValueType} {place : Location}

theorem compile_eq (env : Env) (expected : ValueType) (place : Location) (v : PropertyValue)
    (item : List Segment) :
    Backend.closure.compile env expected place v item =
      (Elaboration.property env expected place v).map fun t =>
        ((ofFormula ⟨item, t⟩, t.type), item) :=
  Backend.closure.writes.run_property item env expected place v

/-- The closure of an expression depends on the places of the bindings that the expression names, in
source order, each at its first occurrence; sizes have no place. So it counts as a constant, for which
nothing is retained, exactly if the expression names nothing but sizes. -/
theorem deps_eq_of_compile {e : Expr} {item item' : List Segment} {thunk : Closure}
    {type : ValueType}
    (h : Backend.closure.compile env expected place (.expression e) item =
      .ok ((thunk, type), item')) :
    thunk.deps = (e.bindings.filterMap (·.absolute? item)).eraseDups ∧
      (thunk.deps = [] ↔ ∀ b ∈ e.bindings, b.scope = .size) ∧
      ∃ f : Formula, thunk = ofFormula f ∧
        ∀ (s : Scene) (views : List Nat) (names : List String) (encoding : Encoding) (c : Canvas),
          names ≠ [] →
            (((Build.follow s views names encoding f).run c).2.retained = c.retained ↔
              ∀ b ∈ e.bindings, b.scope = .size) := by
  rw [compile_eq] at h
  obtain ⟨t, ht, hpair⟩ := exists_of_map_eq_ok h
  cases hpair
  have hkeeps : Term.Keeps e.bindings t.bindings :=
    ((Elaboration.yields_conveys_property env expected place (.expression e)).of_ok ht).1.keeps
  have hdeps : t.deps item = (Binding.places item e.bindings).eraseDups := by
    rw [Term.deps_eq_eraseDups, hkeeps.places_eq]
  have hconstant : t.deps item = [] ↔ ∀ b ∈ e.bindings, b.scope = .size := by
    rw [← Binding.places_eq_nil_iff item, hdeps]
    simp only [eq_nil_iff_forall_not_mem, mem_eraseDups]
  refine ⟨hdeps, hconstant, ⟨item, t⟩, rfl, fun s views names encoding c hnames => ?_⟩
  exact (Build.retained_follow_eq_iff hnames s views encoding ⟨item, t⟩ c).trans hconstant

/-- A name is read twice and the width of the canvas once: the name counts, at its first occurrence. -/
theorem deps_eq_of_compile_names :
    let name : Binding := ⟨.item, [.key "name"]⟩
    let title : Binding := ⟨.data, [.key "title"]⟩
    let width : Binding := ⟨.size, [.key "width"]⟩
    let e : Expr := .op .root .case [.has .root name, .get .root name none, .has .root width,
      .get .root title none, .op .root .concat [.get .root width none, .get .root name none]]
    ∃ thunk : Closure, Backend.closure.compile ⟨.builtin, .html, ⟨110.0, 110.0⟩⟩ .string .root
        (.expression e) [Segment.key "rows", .index 0] =
          .ok ((thunk, .string), [Segment.key "rows", .index 0]) ∧
      thunk.deps = [⟨.data, [.key "rows", .index 0, .key "name"]⟩, ⟨.data, [.key "title"]⟩] := by
  intro name title width e
  let term : Term := .apply .case [.presence name, .read name .string .zero, .presence width,
    .read title .string .zero, .apply .concat [.coerce (.literal (.number 110.0)) .string,
      .read name .string .zero] .string] .string
  have hterm : Elaboration.property ⟨.builtin, .html, ⟨110.0, 110.0⟩⟩ .string .root
      (.expression e) = .ok term := by with_unfolding_all rfl
  have hcompile : Backend.closure.compile ⟨.builtin, .html, ⟨110.0, 110.0⟩⟩ .string .root
      (.expression e) [Segment.key "rows", .index 0] =
        .ok ((ofFormula ⟨[.key "rows", .index 0], term⟩, .string),
          [Segment.key "rows", .index 0]) := by
    rw [compile_eq, hterm]
    rfl
  refine ⟨_, hcompile, (deps_eq_of_compile hcompile).1.trans ?_⟩
  decide +kernel

/-! ### The item as the data -/

/-- A value that names nothing from the data is compiled and run below an item as it is at the top
where the data are the item: with the same static type or the same error, and with the same outcome, be
it a value or a fault. -/
theorem compile_below_item (env : Env) (expected : ValueType) (place : Location) (v : PropertyValue)
    (hv : ∀ b ∈ v.bindings, b.scope ≠ .data) (item : List Segment) (c : Context) (x : Json)
    (hx : c.data.at? item = some x) :
    (Backend.closure.compile env expected place v item).map
        (fun r => (Closure.run r.1.1 c, r.1.2)) =
      (Backend.closure.compile env expected place v ([] : List Segment)).map
        (fun r => (Closure.run r.1.1 ⟨x, c.settings⟩, r.1.2)) := by
  rw [compile_eq, compile_eq]
  cases ht : Elaboration.property env expected place v with
  | error e => rfl
  | ok t =>
    have htyped := ((Elaboration.yields_property env expected place v).of_ok ht).1
    have hrun : t.eval item c = t.eval [] ⟨x, c.settings⟩ :=
      t.eval_congr fun b hb => Binding.found?_below (hv b (htyped.bindings_subset hb)) hx
    exact congrArg (fun o => Except.ok (o, t.type)) hrun

/-- The second row has a name and no age. -/
theorem compile_below_item_row :
    let name : Binding := ⟨.item, [.key "name"]⟩
    let age : Binding := ⟨.item, [.key "age"]⟩
    let v : PropertyValue := .expression (.op .root .concat [.get .root name none,
      .get .root (.setting "mark") none, .get .root age none])
    let row : Json := .object [("name", .string "Ada")]
    let c : Context := ⟨.object [("rows", .array [.null, row])], [("mark", .string ":")]⟩
    (∀ b ∈ v.bindings, b.scope ≠ .data) ∧ c.data.at? [.key "rows", .index 1] = some row ∧
      (Backend.closure.compile ⟨.builtin, .html, ⟨110.0, 110.0⟩⟩ .string .root v
          [Segment.key "rows", .index 1]).map (fun r => (Closure.run r.1.1 c, r.1.2)) =
        (Backend.closure.compile ⟨.builtin, .html, ⟨110.0, 110.0⟩⟩ .string .root v
          ([] : List Segment)).map (fun r => (Closure.run r.1.1 ⟨row, c.settings⟩, r.1.2)) := by
  intro name age v row c
  have hv : ∀ b ∈ v.bindings, b.scope ≠ .data := by decide
  have hrow : c.data.at? [.key "rows", .index 1] = some row := rfl
  exact ⟨hv, hrow, compile_below_item _ .string .root v hv _ c row hrow⟩

end Closure

end Widgetry
