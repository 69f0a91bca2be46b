import Mathlib.Data.List.Basic
import Widgetry.Proofs.Table

/-!
# Walks over two tables

Two tables are walked together in key order: at each key of either one, what they hold there.
-/

namespace Widgetry

open List

namespace Table

variable {κ α : Type} [Ord κ]

/-- A table cut at a key: what stands below the key, the value under it, and what stands above. -/
structure Cut (t : Table κ α) (k : κ) (low : Table κ α) (found : Option α) (high : Table κ α) :
    Prop where
  take : t.takeWhile (fun e => compare e.1 k == .lt) = low
  drop : t.dropWhile (fun e => compare e.1 k == .lt) = (found.map (Prod.mk k)).toList ++ high
  below : ∀ e ∈ low, compare e.1 k = .lt
  above : ∀ e ∈ high, compare k e.1 = .lt
  sorted : Sorted high

variable {t low high : Table κ α} {k j : κ} {found : Option α}

theorem Cut.eq_append (h : Cut t k low found high) :
    t = low ++ ((found.map (Prod.mk k)).toList ++ high) := by
  rw [← h.take, ← h.drop, takeWhile_append_dropWhile]

variable [Std.TransOrd κ] [Std.LawfulEqOrd κ]

omit [Std.TransOrd κ] in
theorem ne_of_lt {a b : κ} (h : compare a b = .lt) : a ≠ b := by
  rintro rfl
  simp at h

theorem Sorted.cut (h : Sorted t) (k : κ) : ∃ low found high, Cut t k low found high := by
  induction t with
  | nil => exact ⟨[], none, [], rfl, rfl, by simp, by simp, sorted_nil⟩
  | cons e t ih =>
    obtain ⟨key, value⟩ := e
    obtain ⟨hfirst, hrest⟩ := pairwise_cons.mp h
    cases hc : compare key k with
    | lt =>
      obtain ⟨low, found, high, hcut⟩ := ih hrest
      refine ⟨(key, value) :: low, found, high, ?_, ?_, ?_, hcut.above, hcut.sorted⟩
      · simp [hc, hcut.take]
      · simp [hc, hcut.drop]
      · exact forall_mem_cons.mpr ⟨hc, hcut.below⟩
    | eq =>
      obtain rfl := Std.compare_eq_iff_eq.mp hc
      exact ⟨[], some value, t, by simp, by simp, by simp, hfirst, hrest⟩
    | gt =>
      have hk : compare k key = .lt := Std.OrientedCmp.lt_of_gt hc
      refine ⟨[], none, (key, value) :: t, by simp [hc], by simp [hc], by simp, ?_, h⟩
      exact forall_mem_cons.mpr ⟨hk, fun f hf => Std.TransCmp.lt_trans hk (hfirst f hf)⟩

namespace Cut

variable {t low high : Table κ α} {k : κ} {found : Option α}

omit [Std.TransOrd κ] in
theorem get?_self (h : Cut t k low found high) : t.get? k = found := by
  have hlow : get? low k = none := get?_eq_none_of_ne fun e he => ne_of_lt (h.below e he)
  have hhigh : get? high k = none := get?_eq_none_of_lt h.above
  have hmiddle : get? (found.map (Prod.mk k)).toList k = found := by
    cases found with
    | none => rfl
    | some a => exact get?_cons_self k a []
  rw [h.eq_append, get?_append, get?_append, hlow, hhigh, hmiddle, Option.none_or, Option.or_none]

omit [Std.TransOrd κ] in
theorem get?_low (h : Cut t k low found high) (ht : Sorted t) {e : κ × α} (he : e ∈ low) :
    t.get? e.1 = some e.2 := by
  apply ht.get?_of_mem
  rw [h.eq_append]
  exact mem_append_left _ he

theorem get?_high (h : Cut t k low found high) (hj : compare k j = .lt) :
    t.get? j = high.get? j := by
  have hlow : get? low j = none :=
    get?_eq_none_of_ne fun e he => ne_of_lt (Std.TransCmp.lt_trans (h.below e he) hj)
  have hmiddle : get? (found.map (Prod.mk k)).toList j = none := by
    cases found with
    | none => rfl
    | some a => exact get?_cons_of_ne (ne_of_lt hj).symm a []
  rw [h.eq_append, get?_append, get?_append, hlow, hmiddle, Option.none_or, Option.none_or]

omit [Std.TransOrd κ] in
/-- Where a walk over two tables stands after a key of the first one: at the same key, at a later
one or at the end. -/
theorem drop_cases (h : Cut t k low found high) :
    (∃ b, found = some b ∧ (t.dropWhile fun e => compare e.1 k == .lt) = (k, b) :: high) ∨
    (found = none ∧ high = [] ∧ (t.dropWhile fun e => compare e.1 k == .lt) = []) ∨
    (∃ l b later, found = none ∧ l ≠ k ∧ high = (l, b) :: later ∧
      (t.dropWhile fun e => compare e.1 k == .lt) = (l, b) :: later) := by
  have hdrop := h.drop
  cases found with
  | some b => exact .inl ⟨b, rfl, hdrop⟩
  | none =>
    cases high with
    | nil => exact .inr (.inl ⟨rfl, rfl, hdrop⟩)
    | cons e later =>
      have hne : e.1 ≠ k := (ne_of_lt (h.above e mem_cons_self)).symm
      exact .inr (.inr ⟨e.1, e.2, later, rfl, hne, rfl, hdrop⟩)

end Cut

/-- The keys of two tables in order, each once. -/
def unionKeys [DecidableEq κ] : Table κ α → Table κ α → List κ
  | [], bs => bs.keys
  | (k, _) :: as, bs =>
      keys (bs.takeWhile fun e => compare e.1 k == .lt) ++ k ::
        match bs.dropWhile fun e => compare e.1 k == .lt with
        | (l, _) :: later =>
            if l = k then unionKeys as later
            else unionKeys as (bs.dropWhile fun e => compare e.1 k == .lt)
        | [] => unionKeys as []

section Union

variable [DecidableEq κ]

omit [Std.TransOrd κ] in
theorem Cut.unionKeys_cons (h : Cut t k low found high) (a : α) (as : Table κ α) :
    unionKeys ((k, a) :: as) t = low.keys ++ k :: unionKeys as high := by
  rw [unionKeys, h.take]
  rcases h.drop_cases with ⟨b, rfl, hd⟩ | ⟨rfl, rfl, hd⟩ | ⟨l, b, later, rfl, hne, rfl, hd⟩
  · simp only [hd, if_true]
  · simp only [hd]
  · simp only [hd, if_neg hne]

variable {as bs : Table κ α} {β : Type} {f : κ → Option α → Option α → List β}

theorem mem_unionKeys (hb : Sorted bs) (h : j ∈ unionKeys as bs) : j ∈ as.keys ∨ j ∈ bs.keys := by
  induction as generalizing bs with
  | nil => exact .inr h
  | cons e as ih =>
    obtain ⟨k, a⟩ := e
    obtain ⟨low, found, high, hcut⟩ := hb.cut k
    rw [hcut.unionKeys_cons, mem_append, mem_cons] at h
    have hkeys : bs.keys = low.keys ++ (keys (found.map (Prod.mk k)).toList ++ high.keys) := by
      rw [hcut.eq_append]
      simp [keys]
    rw [hkeys]
    rcases h with h | rfl | h
    · exact .inr (mem_append_left _ h)
    · exact .inl mem_cons_self
    · rcases ih hcut.sorted h with h | h
      · exact .inl (mem_cons_of_mem _ h)
      · exact .inr (mem_append_right _ (mem_append_right _ h))

/-- The keys after the first one of the first table are above it. -/
theorem lt_of_mem_unionKeys (has : ∀ e ∈ as, compare k e.1 = .lt)
    (hhigh : ∀ e ∈ high, compare k e.1 = .lt) (hs : Sorted high) (h : j ∈ unionKeys as high) :
    compare k j = .lt := by
  rcases mem_unionKeys hs h with h | h
  · obtain ⟨e, he, rfl⟩ := mem_map.mp h
    exact has e he
  · obtain ⟨e, he, rfl⟩ := mem_map.mp h
    exact hhigh e he

theorem pairwise_unionKeys (ha : Sorted as) (hb : Sorted bs) :
    (unionKeys as bs).Pairwise fun j k => compare j k = .lt := by
  induction as generalizing bs with
  | nil => exact pairwise_map.mpr hb
  | cons e as ih =>
    obtain ⟨k, a⟩ := e
    obtain ⟨hfirst, hrest⟩ := pairwise_cons.mp ha
    obtain ⟨low, found, high, hcut⟩ := hb.cut k
    have hlater : ∀ j ∈ unionKeys as high, compare k j = .lt := fun j hj =>
      lt_of_mem_unionKeys hfirst hcut.above hcut.sorted hj
    have hlow : Sorted low := by
      rw [hcut.eq_append] at hb
      exact (pairwise_append.mp hb).1
    rw [hcut.unionKeys_cons, pairwise_append, pairwise_cons]
    refine ⟨pairwise_map.mpr hlow, ⟨hlater, ih hrest hcut.sorted⟩, ?_⟩
    intro i hi j hj
    obtain ⟨e, he, rfl⟩ := mem_map.mp hi
    rcases mem_cons.mp hj with rfl | hj
    · exact hcut.below e he
    · exact Std.TransCmp.lt_trans (hcut.below e he) (hlater j hj)

/-- What is made of the values under each key of two tables, key after key. -/
def merged {β : Type} (f : κ → Option α → Option α → List β) (as bs : Table κ α) : List β :=
  (unionKeys as bs).flatMap fun k => f k (as.get? k) (bs.get? k)

omit [Std.TransOrd κ] in
theorem merged_nil (f : κ → Option α → Option α → List β) (hb : Sorted bs) :
    merged f [] bs = bs.flatMap fun e => f e.1 none (some e.2) := by
  unfold merged unionKeys keys
  rw [flatMap_map]
  apply flatMap_congr
  intro e he
  rw [hb.get?_of_mem he]
  rfl

theorem Cut.merged_cons (f : κ → Option α → Option α → List β) (h : Cut t k low found high) {a : α}
    (ha : Sorted ((k, a) :: as)) (ht : Sorted t) :
    merged f ((k, a) :: as) t =
      (low.flatMap fun e => f e.1 none (some e.2)) ++ (f k (some a) found ++ merged f as high) := by
  obtain ⟨hfirst, -⟩ := pairwise_cons.mp ha
  -- below the key the first table has nothing, above it the entry at the key is not seen
  have hlow : (low.keys.flatMap fun j => f j (get? ((k, a) :: as) j) (t.get? j)) =
      low.flatMap fun e => f e.1 none (some e.2) := by
    unfold keys
    rw [flatMap_map]
    apply flatMap_congr
    intro e he
    have hnone : get? ((k, a) :: as) e.1 = none := by
      apply get?_eq_none_of_lt
      intro g hg
      rcases mem_cons.mp hg with rfl | hg
      · exact h.below e he
      · exact Std.TransCmp.lt_trans (h.below e he) (hfirst g hg)
    rw [hnone, h.get?_low ht he]
  have hhigh : ((unionKeys as high).flatMap fun j => f j (get? ((k, a) :: as) j) (t.get? j)) =
      merged f as high := by
    apply flatMap_congr
    intro j hj
    have hlt := lt_of_mem_unionKeys hfirst h.above h.sorted hj
    rw [get?_cons_of_ne (ne_of_lt hlt).symm, h.get?_high hlt]
  unfold merged at hhigh ⊢
  rw [h.unionKeys_cons, flatMap_append, flatMap_cons, hlow, hhigh, get?_cons_self,
    h.get?_self]

omit [Std.TransOrd κ] [Std.LawfulEqOrd κ] in
theorem mem_merged {b : β} (h : b ∈ merged f as bs) : ∃ k, b ∈ f k (as.get? k) (bs.get? k) := by
  obtain ⟨k, -, hk⟩ := mem_flatMap.mp h
  exact ⟨k, hk⟩

theorem pairwise_merged {r : β → β → Prop} (ha : Sorted as) (hb : Sorted bs)
    (hsame : ∀ k, (f k (as.get? k) (bs.get? k)).Pairwise r)
    (hother : ∀ j k, j ≠ k → ∀ a ∈ f j (as.get? j) (bs.get? j),
      ∀ b ∈ f k (as.get? k) (bs.get? k), r a b) : (merged f as bs).Pairwise r := by
  apply pairwise_flatMap.mpr
  refine ⟨fun k _ => hsame k, ?_⟩
  apply (pairwise_unionKeys ha hb).imp
  intro j k hjk
  exact hother j k (ne_of_lt hjk)

end Union

end Table

end Widgetry
