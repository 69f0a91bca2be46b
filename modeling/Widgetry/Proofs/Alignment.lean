import Mathlib.Data.List.Forall2

/-!
# Lists side by side

Lists of one length whose entries are related one by one.
-/

namespace Widgetry

open List

variable {α β γ : Type} {R : α → β → Prop} {as : List α} {bs : List β}

theorem exists_mem_of_forall₂ (h : Forall₂ R as bs) {b : β} (hb : b ∈ bs) :
    ∃ a ∈ as, R a b := by
  induction h with
  | nil => simp at hb
  | @cons a b' as bs hab _ ih =>
    rcases mem_cons.mp hb with rfl | hb
    · exact ⟨a, mem_cons_self, hab⟩
    · obtain ⟨x, hx, hr⟩ := ih hb
      exact ⟨x, mem_cons_of_mem _ hx, hr⟩

theorem forall₂_append_left_iff {bs : List α} {cs : List β} :
    Forall₂ R (as ++ bs) cs ↔
      ∃ xs ys, Forall₂ R as xs ∧ Forall₂ R bs ys ∧ cs = xs ++ ys := by
  induction as generalizing cs with
  | nil =>
    constructor
    · exact fun h => ⟨[], cs, .nil, h, rfl⟩
    · rintro ⟨xs, ys, hxs, hys, rfl⟩
      cases hxs
      exact hys
  | cons a as ih =>
    rw [cons_append, forall₂_cons_left_iff]
    constructor
    · rintro ⟨c, cs, hc, hcs, rfl⟩
      obtain ⟨xs, ys, hxs, hys, rfl⟩ := ih.mp hcs
      exact ⟨c :: xs, ys, .cons hc hxs, hys, rfl⟩
    · rintro ⟨xs, ys, hxs, hys, rfl⟩
      obtain ⟨c, xs, hc, hlater, rfl⟩ := forall₂_cons_left_iff.mp hxs
      exact ⟨c, xs ++ ys, hc, ih.mpr ⟨xs, ys, hlater, hys, rfl⟩, rfl⟩

theorem forall₂_trans_iff {S : β → γ → Prop} {cs : List γ} :
    (∃ bs, Forall₂ R as bs ∧ Forall₂ S bs cs) ↔
      Forall₂ (fun a c => ∃ b, R a b ∧ S b c) as cs := by
  constructor
  · rintro ⟨bs, hR, hS⟩
    induction hR generalizing cs with
    | nil =>
      cases hS
      exact .nil
    | cons hab _ ih =>
      obtain ⟨c, cs, hbc, hrest, rfl⟩ := forall₂_cons_left_iff.mp hS
      exact .cons ⟨_, hab, hbc⟩ (ih hrest)
  · intro h
    induction h with
    | nil => exact ⟨[], .nil, .nil⟩
    | cons hac _ ih =>
      obtain ⟨b, hab, hbc⟩ := hac
      obtain ⟨bs, hR, hS⟩ := ih
      exact ⟨b :: bs, .cons hab hR, .cons hbc hS⟩

theorem forall₂_iff_getElem? :
    Forall₂ R as bs ↔ as.length = bs.length ∧
      ∀ (i : Nat) (a : α) (b : β), as[i]? = some a → bs[i]? = some b → R a b := by
  rw [forall₂_iff_get]
  refine and_congr_right fun _ => ⟨fun h i a b ha hb => ?_, fun h i hi hj => ?_⟩
  · obtain ⟨hi, rfl⟩ := List.getElem?_eq_some_iff.mp ha
    obtain ⟨hj, rfl⟩ := List.getElem?_eq_some_iff.mp hb
    exact h i hi hj
  · exact h i _ _ (List.getElem?_eq_getElem hi) (List.getElem?_eq_getElem hj)

end Widgetry
