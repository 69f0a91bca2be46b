import Mathlib.Data.List.Induction
import Widgetry.Expr.Evaluation
import Widgetry.Proofs.Expr.Typing

/-!
# Dependence of terms

A term depends on the places of its bindings, each where it is read first. It reads a context at these
places only: what it gives is determined by what its bindings find there.
-/

namespace Widgetry

open List

variable {item : List Segment} {p : DataPath}

namespace Binding

/-- The absolute places of bindings when the item at hand stands at a path; sizes have none. -/
def places (item : List Segment) (bs : List Binding) : List DataPath :=
  bs.filterMap (·.absolute? item)

theorem places_append (item : List Segment) (as bs : List Binding) :
    places item (as ++ bs) = places item as ++ places item bs := filterMap_append

theorem mem_places {bs : List Binding} :
    p ∈ places item bs ↔ ∃ b ∈ bs, b.absolute? item = some p := mem_filterMap

/-- What a context has at the place of a binding, if the binding has one. -/
def found? (item : List Segment) (c : Context) (b : Binding) : Option (Option Json) :=
  (b.absolute? item).map c.lookup?

theorem cases_of_found?_eq {item' : List Segment} {c d : Context} (b : Binding)
    (h : b.found? item c = b.found? item' d) :
    (b.absolute? item = none ∧ b.absolute? item' = none) ∨ ∃ p q, b.absolute? item = some p ∧
      b.absolute? item' = some q ∧ c.lookup? p = d.lookup? q := by
  unfold found? at h
  cases hp : b.absolute? item with
  | none =>
    rw [hp, Option.map_none, eq_comm, Option.map_eq_none_iff] at h
    exact .inl ⟨rfl, h⟩
  | some p =>
    rw [hp, Option.map_some, eq_comm, Option.map_eq_some_iff] at h
    obtain ⟨q, hq, hlookup⟩ := h
    exact .inr ⟨p, q, rfl, hq, hlookup.symm⟩

end Binding

namespace Term

/-! ### Dependencies -/

section Union

variable {α : Type} [BEq α]

theorem union_append (as bs cs : List α) : union as (bs ++ cs) = union (union as bs) cs :=
  foldl_append

variable [LawfulBEq α] {as : List α} {a : α}

theorem union_singleton_of_mem (h : a ∈ as) : union as [a] = as := if_pos (by simpa using h)

theorem union_singleton_of_notMem (h : a ∉ as) : union as [a] = as ++ [a] :=
  if_neg (by simpa using h)

theorem mem_union {bs : List α} : a ∈ union as bs ↔ a ∈ as ∨ a ∈ bs := by
  induction bs using List.reverseRecOn with
  | nil => simp [union]
  | append_singleton bs b ih =>
    rw [union_append]
    by_cases hb : b ∈ union as bs
    · rw [union_singleton_of_mem hb, ih]
      grind
    · rw [union_singleton_of_notMem hb, mem_append, ih, mem_append, or_assoc]

theorem union_nil_eq_eraseDups (bs : List α) : union [] bs = bs.eraseDups := by
  induction bs using List.reverseRecOn with
  | nil => rfl
  | append_singleton bs b ih =>
    rw [union_append, ih, eraseDups_append]
    by_cases hb : b ∈ bs
    · rw [union_singleton_of_mem (mem_eraseDups.mpr hb)]
      simp [List.removeAll, hb]
    · rw [union_singleton_of_notMem (mt mem_eraseDups.mp hb)]
      simp [List.removeAll, hb, eraseDups_cons]

/-- Repeats among what is added make no difference. -/
theorem union_union_nil (as bs : List α) : union as (union [] bs) = union as bs := by
  induction bs using List.reverseRecOn with
  | nil => rfl
  | append_singleton bs b ih =>
    rw [union_append, union_append]
    by_cases hb : b ∈ bs
    · have hb' : b ∈ union [] bs := mem_union.mpr (.inr hb)
      rw [union_singleton_of_mem hb', ih, union_singleton_of_mem (mem_union.mpr (.inr hb))]
    · have hb' : b ∉ union [] bs := by simpa [mem_union] using hb
      rw [union_singleton_of_notMem hb', union_append, ih]

end Union

mutual

theorem deps_eq_union (item : List Segment) (t : Term) :
    t.deps item = union [] (Binding.places item t.bindings) := by
  cases t with
  | literal l => rfl
  | read b want fallback | presence b =>
    simp only [deps, bindings, Binding.places, filterMap_cons, filterMap_nil]
    cases b.absolute? item <;> rfl
  | apply op args result => exact depsAll_eq_union item [] args
  | coerce t target => exact deps_eq_union item t

theorem depsAll_eq_union (item : List Segment) (acc : List DataPath) (ts : List Term) :
    depsAll item acc ts = union acc (Binding.places item (bindingsOf ts)) := by
  cases ts with
  | nil => rfl
  | cons t ts =>
    rw [depsAll, depsAll_eq_union item _ ts, deps_eq_union item t, union_union_nil, bindingsOf,
      Binding.places_append, union_append]

end

/-- A term depends on the places of its bindings, in the order in which it reads them. -/
theorem deps_eq_eraseDups (item : List Segment) (t : Term) :
    t.deps item = (Binding.places item t.bindings).eraseDups := by
  rw [deps_eq_union, union_nil_eq_eraseDups]

theorem mem_deps {t : Term} : p ∈ t.deps item ↔ ∃ b ∈ t.bindings, b.absolute? item = some p := by
  rw [deps_eq_eraseDups, mem_eraseDups, Binding.mem_places]

/-! ### Outcomes -/

section Congruence

variable {item item' : List Segment} {c d : Context} {b : Binding}

theorem evalAll_eq_map (ts : List Term) : evalAll item c ts = ts.map (eval item c) := by
  induction ts with
  | nil => rfl
  | cons t ts ih => rw [evalAll, ih, map_cons]

theorem readBinding_congr (h : b.found? item c = b.found? item' d) (want : ValueType)
    (fallback : Fallback) :
    readBinding item c b want fallback = readBinding item' d b want fallback := by
  unfold readBinding
  rcases b.cases_of_found?_eq h with ⟨hp, hq⟩ | ⟨p, q, hp, hq, hlookup⟩
  · simp only [hp, hq]
  · simp only [hp, hq, hlookup]

theorem isThere_congr (h : b.found? item c = b.found? item' d) :
    isThere item c b = isThere item' d b := by
  unfold isThere
  rcases b.cases_of_found?_eq h with ⟨hp, hq⟩ | ⟨p, q, hp, hq, hlookup⟩
  · simp only [hp, hq]
  · simp only [hp, hq, hlookup]

mutual

/-- The outcome of a term is determined by what its bindings find. -/
theorem eval_congr (t : Term) (h : ∀ b ∈ t.bindings, b.found? item c = b.found? item' d) :
    t.eval item c = t.eval item' d := by
  cases t with
  | literal l => rfl
  | read b want fallback => exact readBinding_congr (h b mem_cons_self) want fallback
  | presence b =>
    simp only [eval]
    rw [isThere_congr (h b mem_cons_self)]
  | apply op args result =>
    simp only [eval]
    rw [evalAll_congr args h]
  | coerce t target =>
    simp only [eval]
    rw [eval_congr t h]

theorem evalAll_congr (ts : List Term)
    (h : ∀ b ∈ bindingsOf ts, b.found? item c = b.found? item' d) :
    evalAll item c ts = evalAll item' d ts := by
  cases ts with
  | nil => rfl
  | cons t ts =>
    simp only [evalAll]
    rw [eval_congr t fun b hb => h b (mem_append_left _ hb),
      evalAll_congr ts fun b hb => h b (mem_append_right _ hb)]

end

theorem eval_eq_of_agree (t : Term) (h : ∀ p ∈ t.deps item, c.lookup? p = d.lookup? p) :
    t.eval item c = t.eval item d := by
  refine eval_congr t fun b hb => ?_
  unfold Binding.found?
  cases hp : b.absolute? item with
  | none => rfl
  | some p => rw [Option.map_some, Option.map_some, h p (mem_deps.mpr ⟨b, hb, hp⟩)]

end Congruence

end Term

end Widgetry
