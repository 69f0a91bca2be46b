import Widgetry.Table

/-!
# Laws of tables

What insertion and removal do to the value under a key, and that tables in key order are determined
by their values.
-/

namespace Widgetry.Table

open List

/-- An order by an index tells keys apart that can be read back from the index. -/
theorem lawfulEqCmp_compareOn {κ : Type} {index : κ → Nat} {key : Nat → κ}
    (h : ∀ k, key (index k) = k) : Std.LawfulEqCmp (compareOn index) where
  compare_self {a} := (Std.ReflCmp.compare_self : compare (index a) (index a) = .eq)
  eq_of_compare {a b} hab := by
    have hindex : index a = index b := Std.LawfulEqCmp.eq_of_compare hab
    rw [← h a, hindex, h b]

variable {κ α : Type} [Ord κ]

/-- Keys stand in increasing order, each once. -/
def Sorted (t : Table κ α) : Prop := t.Pairwise fun a b => compare a.1 b.1 = .lt

instance (t : Table κ α) : Decidable (Sorted t) :=
  inferInstanceAs (Decidable (t.Pairwise fun a b => compare a.1 b.1 = .lt))

theorem sorted_nil : Sorted ([] : Table κ α) := List.Pairwise.nil

variable {k : κ} {t : Table κ α} {e : κ × α} {entries : List (κ × α)}

theorem mem_insert {v : α} (h : e ∈ t.insert k v) : e = (k, v) ∨ e ∈ t := by
  induction t with
  | nil => exact .inl (mem_singleton.mp h)
  | cons f t ih =>
    obtain ⟨key, value⟩ := f
    cases hc : compare k key with
    | lt => simpa [insert, hc] using h
    | eq =>
      simp only [insert, hc, mem_cons] at h
      rcases h with rfl | h
      · exact .inl rfl
      · exact .inr (mem_cons_of_mem _ h)
    | gt =>
      simp only [insert, hc, mem_cons] at h
      rcases h with rfl | h
      · exact .inr mem_cons_self
      · rcases ih h with rfl | h
        · exact .inl rfl
        · exact .inr (mem_cons_of_mem _ h)

theorem mem_of_mem_foldl_insert (h : e ∈ entries.foldl (fun t e => t.insert e.1 e.2) t) :
    e ∈ entries ∨ e ∈ t := by
  induction entries generalizing t with
  | nil => exact .inr h
  | cons f entries ih =>
    rcases ih h with h | h
    · exact .inl (mem_cons_of_mem _ h)
    · rcases mem_insert h with rfl | h
      · exact .inl mem_cons_self
      · exact .inr h

theorem mem_of_mem_ofList (h : e ∈ ofList entries) : e ∈ entries := by
  rcases mem_of_mem_foldl_insert h with h | h
  · exact h
  · simp at h

theorem length_insert_le (t : Table κ α) (k : κ) (v : α) :
    (t.insert k v).length ≤ t.length + 1 := by
  induction t with
  | nil => exact Nat.le_refl 1
  | cons e t ih =>
    obtain ⟨key, value⟩ := e
    cases hc : compare k key with
    | lt | eq => simp [insert, hc]
    | gt => simpa [insert, hc] using ih

theorem length_foldl_insert_le (entries : List (κ × α)) (t : Table κ α) :
    (entries.foldl (fun t e => t.insert e.1 e.2) t).length ≤ entries.length + t.length := by
  induction entries generalizing t with
  | nil => simp
  | cons e entries ih =>
    have hrest := ih (t.insert e.1 e.2)
    have hfirst := length_insert_le t e.1 e.2
    simp only [foldl_cons, length_cons]
    omega

theorem length_ofList_le (entries : List (κ × α)) : (ofList entries).length ≤ entries.length :=
  length_foldl_insert_le entries []

section Values

variable {β : Type} (f : α → β)

def mapValues (t : Table κ α) : Table κ β := t.map fun e => (e.1, f e.2)

theorem mapValues_insert (t : Table κ α) (k : κ) (v : α) :
    mapValues f (t.insert k v) = (mapValues f t).insert k (f v) := by
  induction t with
  | nil => rfl
  | cons e t ih =>
    obtain ⟨key, value⟩ := e
    cases hc : compare k key with
    | lt | eq => simp [mapValues, insert, hc]
    | gt => simpa [mapValues, insert, hc] using ih

theorem mapValues_foldl_insert (entries : List (κ × α)) (t : Table κ α) :
    mapValues f (entries.foldl (fun t e => t.insert e.1 e.2) t) =
      (mapValues f entries).foldl (fun t e => t.insert e.1 e.2) (mapValues f t) := by
  induction entries generalizing t with
  | nil => rfl
  | cons e entries ih =>
    rw [foldl_cons, ih, mapValues_insert]
    rfl

theorem ofList_mapValues (entries : List (κ × α)) :
    ofList (mapValues f entries) = mapValues f (ofList entries) :=
  (mapValues_foldl_insert f entries []).symm

theorem get?_mapValues (t : Table κ α) (k : κ) : (mapValues f t).get? k = (t.get? k).map f := by
  induction t with
  | nil => rfl
  | cons e t ih =>
    obtain ⟨key, value⟩ := e
    cases hc : compare k key with
    | eq => simp [mapValues, get?, hc]
    | lt | gt => simpa [mapValues, get?, hc] using ih

theorem Sorted.mapValues (h : Sorted t) : Sorted (mapValues f t) :=
  pairwise_map.mpr h

end Values

theorem erase_sublist (t : Table κ α) (k : κ) : (t.erase k).Sublist t := by
  induction t with
  | nil => exact .slnil
  | cons e t ih =>
    obtain ⟨key, value⟩ := e
    cases hc : compare k key with
    | eq => simp [erase, hc]
    | lt | gt => simpa [erase, hc] using ih

theorem Sorted.erase (h : Sorted t) (k : κ) : Sorted (t.erase k) :=
  List.Pairwise.sublist (erase_sublist t k) h

section Keys

variable [Std.LawfulEqOrd κ]

theorem get?_cons_self (k : κ) (v : α) (t : Table κ α) : get? ((k, v) :: t) k = some v := by
  simp [get?]

theorem get?_cons_of_ne {key : κ} (h : k ≠ key) (v : α) (t : Table κ α) :
    get? ((key, v) :: t) k = get? t k := by
  cases hc : compare k key with
  | eq => exact absurd (Std.compare_eq_iff_eq.mp hc) h
  | lt | gt => simp [get?, hc]

theorem get?_insert_self (t : Table κ α) (k : κ) (v : α) : (t.insert k v).get? k = some v := by
  induction t with
  | nil => exact get?_cons_self k v []
  | cons e t ih =>
    obtain ⟨key, value⟩ := e
    cases hc : compare k key with
    | lt | eq => simp only [insert, hc, get?_cons_self]
    | gt =>
      have hne : k ≠ key := by
        rintro rfl
        simp at hc
      simp only [insert, hc]
      rw [get?_cons_of_ne hne, ih]

theorem get?_insert_of_ne {l : κ} (h : l ≠ k) (t : Table κ α) (v : α) :
    (t.insert k v).get? l = t.get? l := by
  induction t with
  | nil => exact get?_cons_of_ne h v []
  | cons e t ih =>
    obtain ⟨key, value⟩ := e
    cases hc : compare k key with
    | lt => simp only [insert, hc, get?_cons_of_ne h]
    | eq =>
      obtain rfl := Std.compare_eq_iff_eq.mp hc
      simp only [insert, hc, get?_cons_of_ne h]
    | gt =>
      simp only [insert, hc]
      by_cases hl : l = key
      · subst hl
        rw [get?_cons_self, get?_cons_self]
      · rw [get?_cons_of_ne hl, get?_cons_of_ne hl, ih]

theorem erase_cons_of_ne {key : κ} (h : k ≠ key) (v : α) (t : Table κ α) :
    erase ((key, v) :: t) k = (key, v) :: erase t k := by
  cases hc : compare k key with
  | eq => exact absurd (Std.compare_eq_iff_eq.mp hc) h
  | lt | gt => simp [erase, hc]

theorem get?_erase_of_ne {l : κ} (h : l ≠ k) (t : Table κ α) : (t.erase k).get? l = t.get? l := by
  induction t with
  | nil => rfl
  | cons e t ih =>
    obtain ⟨key, value⟩ := e
    by_cases hk : k = key
    · subst hk
      rw [get?_cons_of_ne h]
      simp [erase]
    · rw [erase_cons_of_ne hk]
      by_cases hl : l = key
      · subst hl
        rw [get?_cons_self, get?_cons_self]
      · rw [get?_cons_of_ne hl, get?_cons_of_ne hl, ih]

/-- A key below all others has no value in a table. -/
theorem get?_eq_none_of_lt (h : ∀ e ∈ t, compare k e.1 = .lt) : t.get? k = none := by
  induction t with
  | nil => rfl
  | cons e t ih =>
    obtain ⟨key, value⟩ := e
    have hne : k ≠ key := by
      rintro rfl
      simpa using h (k, value) mem_cons_self
    rw [get?_cons_of_ne hne]
    exact ih fun e he => h e (mem_cons_of_mem _ he)

theorem get?_eq_none_of_ne (h : ∀ e ∈ t, e.1 ≠ k) : t.get? k = none := by
  induction t with
  | nil => rfl
  | cons e t ih =>
    rw [get?_cons_of_ne (h e mem_cons_self).symm]
    exact ih fun e he => h e (mem_cons_of_mem _ he)

theorem mem_of_get? {v : α} (h : t.get? k = some v) : (k, v) ∈ t := by
  induction t with
  | nil => cases h
  | cons e t ih =>
    obtain ⟨key, value⟩ := e
    by_cases hk : k = key
    · subst hk
      rw [get?_cons_self] at h
      exact Option.some.inj h ▸ mem_cons_self
    · rw [get?_cons_of_ne hk] at h
      exact mem_cons_of_mem _ (ih h)

theorem exists_get?_of_mem (h : e ∈ t) : ∃ v, t.get? e.1 = some v := by
  induction t with
  | nil => cases h
  | cons f t ih =>
    by_cases hk : e.1 = f.1
    · exact ⟨f.2, hk ▸ get?_cons_self f.1 f.2 t⟩
    · rw [get?_cons_of_ne hk]
      refine ih ((mem_cons.mp h).resolve_left ?_)
      rintro rfl
      exact hk rfl

theorem get?_append (s t : Table κ α) (k : κ) :
    get? (s ++ t) k = (s.get? k).or (t.get? k) := by
  induction s with
  | nil => rfl
  | cons e s ih =>
    obtain ⟨key, value⟩ := e
    by_cases hk : k = key
    · subst hk
      rw [cons_append, get?_cons_self, get?_cons_self, Option.some_or]
    · rw [cons_append, get?_cons_of_ne hk, get?_cons_of_ne hk, ih]

theorem get?_foldl_insert (entries : List (κ × α)) (t : Table κ α) (k : κ) :
    (entries.foldl (fun t e => t.insert e.1 e.2) t).get? k =
      (get? entries.reverse k).or (t.get? k) := by
  induction entries generalizing t with
  | nil => rfl
  | cons e entries ih =>
    obtain ⟨key, value⟩ := e
    rw [foldl_cons, ih, reverse_cons, get?_append, Option.or_assoc]
    congr 1
    by_cases hk : k = key
    · subst hk
      rw [get?_insert_self, get?_cons_self, Option.some_or]
    · rw [get?_insert_of_ne hk, get?_cons_of_ne hk]
      rfl

theorem get?_ofList (entries : List (κ × α)) (k : κ) :
    (ofList entries).get? k = get? entries.reverse k :=
  (get?_foldl_insert entries [] k).trans (Option.or_none)

/-- The order of entries with different keys does not matter. -/
theorem get?_perm {others : List (κ × α)} (h : entries.Perm others)
    (hkeys : (entries.map Prod.fst).Nodup) (k : κ) : get? entries k = get? others k := by
  induction h with
  | nil => rfl
  | cons e h ih =>
    have hrest := ih (nodup_cons.mp hkeys).2
    by_cases hk : k = e.1
    · subst hk
      rw [get?_cons_self, get?_cons_self]
    · rw [get?_cons_of_ne hk, get?_cons_of_ne hk, hrest]
  | swap e f entries =>
    have hne : f.1 ≠ e.1 := fun heq => (nodup_cons.mp hkeys).1 (heq ▸ mem_cons_self)
    by_cases he : k = e.1
    · subst he
      rw [get?_cons_of_ne hne.symm, get?_cons_self, get?_cons_self]
    · by_cases hf : k = f.1
      · subst hf
        rw [get?_cons_self, get?_cons_of_ne hne, get?_cons_self]
      · simp only [get?_cons_of_ne he, get?_cons_of_ne hf]
  | trans h _ ih ih' => exact (ih hkeys).trans (ih' ((h.map Prod.fst).nodup_iff.mp hkeys))

theorem Sorted.get?_of_mem (h : Sorted t) (he : e ∈ t) : t.get? e.1 = some e.2 := by
  induction t with
  | nil => simp at he
  | cons f t ih =>
    obtain ⟨hfirst, hrest⟩ := pairwise_cons.mp h
    rcases mem_cons.mp he with rfl | he
    · exact get?_cons_self _ _ t
    · have hne : e.1 ≠ f.1 := by
        intro hk
        have hlt := hfirst e he
        rw [hk] at hlt
        simp at hlt
      rw [show f = (f.1, f.2) from rfl, get?_cons_of_ne hne]
      exact ih hrest he

theorem Sorted.get?_erase_self (h : Sorted t) (k : κ) : (t.erase k).get? k = none := by
  induction t with
  | nil => rfl
  | cons e t ih =>
    obtain ⟨key, value⟩ := e
    obtain ⟨hfirst, hrest⟩ := pairwise_cons.mp h
    by_cases hk : k = key
    · subst hk
      simpa [Table.erase] using get?_eq_none_of_lt hfirst
    · rw [erase_cons_of_ne hk, get?_cons_of_ne hk, ih hrest]

theorem Sorted.get?_filter (h : Sorted t) (p : κ × α → Bool) (k : κ) :
    get? (t.filter p) k = (t.get? k).filter fun v => p (k, v) := by
  induction t with
  | nil => rfl
  | cons e t ih =>
    obtain ⟨key, value⟩ := e
    obtain ⟨hfirst, hrest⟩ := pairwise_cons.mp h
    by_cases hk : k = key
    · subst hk
      rw [get?_cons_self, Option.filter_some]
      split
      · rename_i hp
        rw [filter_cons_of_pos hp, get?_cons_self]
      · rename_i hp
        rw [filter_cons_of_neg hp, get?_eq_none_of_lt]
        exact fun e he => hfirst e (mem_filter.mp he).1
    · rw [get?_cons_of_ne hk, ← ih hrest, filter_cons]
      split
      · rw [get?_cons_of_ne hk]
      · rfl

end Keys

section Order

variable [Std.TransOrd κ] [Std.LawfulEqOrd κ]

theorem Sorted.insert (h : Sorted t) (k : κ) (v : α) : Sorted (t.insert k v) := by
  induction t with
  | nil => exact pairwise_singleton _ _
  | cons e t ih =>
    obtain ⟨key, value⟩ := e
    obtain ⟨hfirst, hrest⟩ := pairwise_cons.mp h
    cases hc : compare k key with
    | lt =>
      simp only [Table.insert, hc]
      refine pairwise_cons.mpr ⟨?_, h⟩
      intro f hf
      rcases mem_cons.mp hf with rfl | hf
      · exact hc
      · exact Std.TransCmp.lt_trans hc (hfirst f hf)
    | eq =>
      obtain rfl := Std.compare_eq_iff_eq.mp hc
      simp only [Table.insert, hc]
      exact pairwise_cons.mpr ⟨hfirst, hrest⟩
    | gt =>
      simp only [Table.insert, hc]
      refine pairwise_cons.mpr ⟨?_, ih hrest⟩
      intro f hf
      rcases mem_insert hf with rfl | hf
      · exact Std.OrientedCmp.lt_of_gt hc
      · exact hfirst f hf

/-- Tables in key order with the same values are the same. -/
theorem Sorted.ext {u : Table κ α} (ht : Sorted t) (hu : Sorted u) (h : ∀ k, t.get? k = u.get? k) :
    t = u := by
  induction t generalizing u with
  | nil =>
    cases u with
    | nil => rfl
    | cons f u =>
      have hf := h f.1
      rw [show f = (f.1, f.2) from rfl, get?_cons_self] at hf
      simp [get?] at hf
  | cons e t ih =>
    obtain ⟨k, v⟩ := e
    obtain ⟨hfirst, hrest⟩ := pairwise_cons.mp ht
    cases u with
    | nil =>
      have hk := h k
      rw [get?_cons_self] at hk
      simp [get?] at hk
    | cons f u =>
      obtain ⟨l, w⟩ := f
      obtain ⟨hfirst', hrest'⟩ := pairwise_cons.mp hu
      -- the first keys agree: the smaller one would be missing on the other side
      have hkl : k = l := by
        cases hc : compare k l with
        | eq => exact Std.compare_eq_iff_eq.mp hc
        | lt =>
          have hk := h k
          rw [get?_cons_self, get?_eq_none_of_lt] at hk
          · cases hk
          · intro f hf
            rcases mem_cons.mp hf with rfl | hf
            · exact hc
            · exact Std.TransCmp.lt_trans hc (hfirst' f hf)
        | gt =>
          have hl := h l
          have hc' := Std.OrientedCmp.lt_of_gt hc
          rw [get?_cons_self, get?_eq_none_of_lt] at hl
          · cases hl
          · intro f hf
            rcases mem_cons.mp hf with rfl | hf
            · exact hc'
            · exact Std.TransCmp.lt_trans hc' (hfirst f hf)
      subst hkl
      have hv : v = w := by
        have hk := h k
        rw [get?_cons_self, get?_cons_self] at hk
        exact Option.some.inj hk
      subst hv
      refine congrArg _ (ih hrest hrest' fun x => ?_)
      by_cases hx : x = k
      · subst hx
        rw [get?_eq_none_of_lt hfirst, get?_eq_none_of_lt hfirst']
      · have hxk := h x
        rwa [get?_cons_of_ne hx, get?_cons_of_ne hx] at hxk

theorem sorted_foldl_insert (entries : List (κ × α)) (h : Sorted t) :
    Sorted (entries.foldl (fun t e => t.insert e.1 e.2) t) := by
  induction entries generalizing t with
  | nil => exact h
  | cons e entries ih => exact ih (h.insert e.1 e.2)

theorem sorted_ofList (entries : List (κ × α)) : Sorted (ofList entries) :=
  sorted_foldl_insert entries sorted_nil

end Order

end Widgetry.Table
