import Mathlib.Data.List.Nodup
import Mathlib.Data.List.Perm.Subperm
import Widgetry.Proofs.Binding
import Widgetry.Proofs.Table
import Widgetry.View.Rendering

/-!
# Unresolved bindings

A rendering lists the texts of the bindings that its context leaves unresolved, each text once. As
bindings that were read are displayed differently, no two of them share an entry of the list.
-/

namespace Widgetry

open List

/-! ### What is listed -/

mutual

/-- The formulas below a slot. -/
def Slot.formulas : Slot → List Formula
  | ⟨_, _, properties, slots⟩ => properties.map BoundProperty.formula ++ formulasAll slots

/-- The formulas of slots and below them. -/
def Slot.formulasAll : List Slot → List Formula
  | [] => []
  | s :: ss => s.site.kind.formula?.toList ++ formulas s ++ formulasAll ss

end

def Retained.formulas (r : Retained) : List Formula :=
  r.properties.map BoundProperty.formula ++ Slot.formulasAll r.slots

mutual

theorem Slot.missing_eq_filterMap (c : Context) :
    (s : Slot) → s.missing c = s.formulas.filterMap (·.missing? c)
  | ⟨_, _, properties, slots⟩ => by
    rw [missing, formulas, filterMap_append, filterMap_map,
      missingAll_eq_filterMap c slots]
    rfl

theorem Slot.missingAll_eq_filterMap (c : Context) :
    (ss : List Slot) → missingAll c ss = (formulasAll ss).filterMap (·.missing? c)
  | [] => rfl
  | s :: ss => by
    rw [missingAll, formulasAll, filterMap_append, filterMap_append,
      missing_eq_filterMap c s, missingAll_eq_filterMap c ss]
    cases s.site.kind.formula? with
    | none => rfl
    | some f => cases hf : f.missing? c <;> simp [hf]

end

theorem Table.mem_keys_ofList {xs : List String} {x : String} :
    x ∈ keys (ofList (xs.map fun x => (x, ()))) ↔ x ∈ xs := by
  constructor
  · intro hx
    obtain ⟨e, he, rfl⟩ := mem_map.mp hx
    obtain ⟨y, hy, rfl⟩ := mem_map.mp (mem_of_mem_ofList he)
    exact hy
  · intro hx
    have hentry : (x, ()) ∈ (xs.map fun x => (x, ())).reverse := by simpa using hx
    obtain ⟨u, hu⟩ := exists_get?_of_mem hentry
    rw [← get?_ofList] at hu
    exact mem_map.mpr ⟨(x, u), mem_of_get? hu, rfl⟩

theorem Retained.mem_missing_iff {r : Retained} {c : Context} {text : String} :
    text ∈ r.missing c ↔ ∃ f ∈ r.formulas, f.missing? c = some text := by
  have hall : r.properties.filterMap (fun p => p.formula.missing? c) ++ Slot.missingAll c r.slots =
      r.formulas.filterMap (·.missing? c) := by
    rw [formulas, filterMap_append, filterMap_map, Slot.missingAll_eq_filterMap]
    rfl
  rw [missing, hall, Table.mem_keys_ofList, mem_filterMap]

/-! ### Display -/

/-- A binding that a reader gives for some text. -/
def Binding.IsRead (b : Binding) : Prop := ∃ s, parse? s = some b ∨ parsePath? s = some b

theorem Binding.IsRead.parsePath?_render {b : Binding} (h : b.IsRead) :
    parsePath? b.render = some b := by
  obtain ⟨s, h | h⟩ := h
  · exact Binding.parsePath?_render (isSpelled_of_parse? h)
  · exact Binding.parsePath?_render (isSpelled_of_parsePath? h)

theorem Binding.IsRead.eq_of_render {a b : Binding} (ha : a.IsRead) (hb : b.IsRead)
    (h : a.render = b.render) : a = b := by
  have hread := ha.parsePath?_render
  rw [h, hb.parsePath?_render] at hread
  exact (Option.some.inj hread).symm

/-- A text is read as a binding if it is a scope with segments behind it, and the binding is displayed
as the text less the zeros in front of indices. What is displayed is read back as the same binding, so
bindings are displayed differently, and those that are unresolved have an entry each. -/
theorem Binding.read_and_displayed :
    (∀ s b, parse? s = some b ↔ ∃ pieces, Spells pieces s b) ∧
    (∀ pieces s b, Spells pieces s b → b.render.toList =
      (scopeText b.scope).toList ++ dotted (pieces.map Segment.significant)) ∧
    (∀ b : Binding, b.IsRead → parsePath? b.render = some b) ∧
    (∀ a b : Binding, a.IsRead → b.IsRead → a ≠ b → a.render ≠ b.render) ∧
    ∀ (R : Rendering) (bs : List Binding), bs.Nodup →
      (∀ b ∈ bs, b.IsRead ∧ ∃ f ∈ R.retained.formulas, f.missing? R.context = some b.render) →
      (bs.map render).Subperm R.missing := by
  refine ⟨fun _ _ => parse?_eq_some_iff, fun _ _ _ h => h.toList_render,
    fun _ h => h.parsePath?_render, fun a b ha hb hne heq => hne (ha.eq_of_render hb heq),
    fun R bs hnodup h => List.Nodup.subperm ?_ ?_⟩
  · exact List.Nodup.map_on (fun a ha b hb => (h a ha).1.eq_of_render (h b hb).1) hnodup
  · rintro text htext
    obtain ⟨b, hb, rfl⟩ := mem_map.mp htext
    exact Retained.mem_missing_iff.mpr (h b hb).2

end Widgetry
