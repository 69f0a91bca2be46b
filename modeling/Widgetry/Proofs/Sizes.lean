import Mathlib.Data.List.Pairwise
import Mathlib.Tactic.SplitIfs
import Widgetry.Layout.Reader
import Widgetry.Proofs.Computation

/-!
# Declared sizes

Sizes are accepted when there is one, each is sound by itself, and their ids make different words. They
are sorted by area and then by id; with ids that all differ, the order in which sizes are declared
leaves no trace in the layout that is read but for the declared list and the fingerprint.
-/

namespace Widgetry

open List

/-! ### What is checked -/

namespace SizeClass

/-- A length that a size may have. -/
def Measures (x : Float) : Prop := x.isFinite = true ∧ ¬x ≤ 0.0

/-- What is asked of a size by itself. -/
structure Sound (s : SizeClass) : Prop where
  named : (Text.trim s.id).isEmpty = false
  worded : (Text.pascal s.id).isEmpty = false
  width : Measures s.width
  height : Measures s.height

/-- What is asked of two sizes. -/
def Differs (s t : SizeClass) : Prop := Text.pascal s.id ≠ Text.pascal t.id

instance : Std.Symm Differs := ⟨fun _ _ => Ne.symm⟩

theorem measures_iff {x : Float} : (!x.isFinite || decide (x ≤ 0.0)) = false ↔ Measures x := by
  rw [Bool.or_eq_false_iff, Bool.not_eq_false', decide_eq_false_iff_not]
  rfl

end SizeClass

namespace Layout

open SizeClass

variable {place : Location} {earlier sizes others : List SizeClass}

theorem succeeds_checkSize_iff {s : SizeClass} :
    Succeeds (checkSize place earlier s) ↔ s.Sound ∧ ∀ t ∈ earlier, Differs t s := by
  simp only [checkSize, succeeds_guard_iff, Bool.not_eq_true]
  cases hfind : earlier.find? fun t => Text.pascal t.id == Text.pascal s.id with
  | some other =>
    have hclash : Text.pascal other.id = Text.pascal s.id := by simpa using List.find?_some hfind
    refine iff_of_false (fun h => not_succeeds_error _ h.2.2.2) fun h => ?_
    exact h.2 other (mem_of_find?_eq_some hfind) hclash
  | none =>
    have hdiffers : ∀ t ∈ earlier, Differs t s := fun t ht h =>
      List.find?_eq_none.mp hfind t ht (beq_iff_eq.mpr h)
    have hids : (earlier.any fun t => t.id == s.id) = false := any_eq_false.mpr fun t ht h =>
      hdiffers t ht (congrArg Text.pascal (eq_of_beq h))
    simp only [succeeds_guard_iff, succeeds_check_iff, Bool.not_eq_true, measures_iff]
    constructor
    · rintro ⟨hnamed, -, hworded, hwidth, hheight, -⟩
      exact ⟨⟨hnamed, hworded, hwidth, hheight⟩, hdiffers⟩
    · rintro ⟨⟨hnamed, hworded, hwidth, hheight⟩, -⟩
      exact ⟨hnamed, hids, hworded, hwidth, hheight, succeeds_ok ()⟩

theorem succeeds_checkSizesFrom_iff {i : Nat} : Succeeds (checkSizesFrom place i earlier sizes) ↔
    (∀ s ∈ sizes, s.Sound ∧ ∀ t ∈ earlier, Differs t s) ∧ sizes.Pairwise Differs := by
  induction sizes generalizing i earlier with
  | nil => exact iff_of_true (succeeds_ok ()) ⟨forall_mem_nil _, .nil⟩
  | cons s rest ih =>
    rw [checkSizesFrom, succeeds_bind_iff fun _ => ih, succeeds_checkSize_iff, forall_mem_cons,
      pairwise_cons]
    constructor
    · rintro ⟨hs, hrest, hpairs⟩
      refine ⟨⟨hs, fun t ht => ⟨(hrest t ht).1, fun u hu => ?_⟩⟩, fun t ht => ?_, hpairs⟩
      · exact (hrest t ht).2 u (mem_append_left [s] hu)
      · exact (hrest t ht).2 s (mem_append_right earlier mem_cons_self)
    · rintro ⟨⟨hs, hrest⟩, hfirst, hpairs⟩
      refine ⟨hs, fun t ht => ⟨(hrest t ht).1, fun u hu => ?_⟩, hpairs⟩
      rcases mem_append.mp hu with hu | hu
      · exact (hrest t ht).2 u hu
      · rw [mem_singleton.mp hu]
        exact hfirst t ht

theorem succeeds_checkSizes_iff : Succeeds (checkSizes place sizes) ↔
    sizes ≠ [] ∧ (∀ s ∈ sizes, s.Sound) ∧ sizes.Pairwise Differs := by
  rw [checkSizes]
  cases sizes with
  | nil => exact iff_of_false (not_succeeds_error _) fun h => h.1 rfl
  | cons s rest =>
    rw [isEmpty_cons, if_neg Bool.false_ne_true, succeeds_checkSizesFrom_iff]
    refine ⟨fun h => ⟨cons_ne_nil s rest, fun t ht => (h.1 t ht).1, h.2⟩, fun h => ?_⟩
    exact ⟨fun t ht => ⟨h.2.1 t ht, forall_mem_nil _⟩, h.2.2⟩

theorem succeeds_checkSizes_perm (h : sizes.Perm others) :
    Succeeds (checkSizes place sizes) ↔ Succeeds (checkSizes place others) := by
  have hpairs : sizes.Pairwise Differs ↔ others.Pairwise Differs := h.pairwise_iff (Std.Symm.symm _ _)
  simp only [succeeds_checkSizes_iff, hpairs, h.mem_iff, ne_eq, ← length_eq_zero_iff, h.length_eq]

/-! ### Their order -/

variable {a b : SizeClass} {l m : Layout}

theorem sizeBefore_iff : sizeBefore a b = true ↔
    Decimal.totalKey b.size.area < Decimal.totalKey a.size.area ∨
      Decimal.totalKey a.size.area = Decimal.totalKey b.size.area ∧ (compare a.id b.id).isLE = true := by
  unfold sizeBefore
  cases compare a.id b.id <;> grind [Ordering.isLE]

theorem sizeBefore_trans (a b c : SizeClass) (hab : sizeBefore a b = true)
    (hbc : sizeBefore b c = true) : sizeBefore a c = true := by
  rw [sizeBefore_iff] at *
  rcases hab with hab | ⟨hab, hid⟩
  · exact .inl (by omega)
  · rcases hbc with hbc | ⟨hbc, hid'⟩
    · exact .inl (by omega)
    · exact .inr ⟨hab.trans hbc, Std.TransCmp.isLE_trans hid hid'⟩

theorem sizeBefore_total (a b : SizeClass) : (sizeBefore a b || sizeBefore b a) = true := by
  rw [Bool.or_eq_true, sizeBefore_iff, sizeBefore_iff]
  have hids : (compare a.id b.id).isLE = true ∨ (compare b.id a.id).isLE = true := by
    rw [Std.OrientedOrd.eq_swap (a := b.id)]
    cases compare a.id b.id <;> simp
  grind

theorem id_eq_of_sizeBefore (hab : sizeBefore a b = true) (hba : sizeBefore b a = true) :
    a.id = b.id := by
  rw [sizeBefore_iff] at *
  have hle : (compare a.id b.id).isLE = true ∧ (compare b.id a.id).isLE = true := by grind
  exact Std.LawfulEqOrd.eq_of_compare (Std.OrientedCmp.isLE_antisymm hle.1 hle.2)

theorem pairwise_sizesByArea (l : Layout) : l.sizesByArea.Pairwise (sizeBefore · ·) :=
  pairwise_mergeSort sizeBefore_trans sizeBefore_total l.sizes

/-- Sizes whose ids differ come out in one order. -/
theorem mergeSort_sizes_perm (h : sizes.Perm others) (hsizes : sizes.Pairwise Differs) :
    sizes.mergeSort sizeBefore = others.mergeSort sizeBefore := by
  have hperm := (mergeSort_perm sizes sizeBefore).trans
    (h.trans (mergeSort_perm others sizeBefore).symm)
  refine hperm.eq_of_pairwise (fun a b ha hb hab hba => ?_)
    (pairwise_mergeSort sizeBefore_trans sizeBefore_total sizes)
    (pairwise_mergeSort sizeBefore_trans sizeBefore_total others)
  refine Classical.byContradiction fun hne => ?_
  have hdiffers := hsizes.forall (mem_mergeSort.mp ha)
    (h.mem_iff.mpr (mem_mergeSort.mp hb)) hne
  exact hdiffers (congrArg Text.pascal (id_eq_of_sizeBefore hab hba))

/-! ### Documents that declare them in another order -/

/-- Documents that differ at most in the order of their sizes, as objects or as arrays of fields. -/
inductive Reordered : Json → Json → Prop
  | object (before after : List (String × Json)) {a b : List Json} (h : a.Perm b) :
      Reordered (.object (before ++ ("supportedSizes", .array a) :: after))
        (.object (before ++ ("supportedSizes", .array b) :: after))
  | array (name displayName description padding : Json) (after : List Json) {a b : List Json}
      (h : a.Perm b) :
      Reordered (.array (name :: displayName :: description :: padding :: .array a :: after))
        (.array (name :: displayName :: description :: padding :: .array b :: after))

/-- Drafts that differ at most in the order of their sizes. -/
def Draft.Alike (d e : Draft) : Prop := ∃ sizes, d.sizes.Perm sizes ∧ e = { d with sizes := sizes }

/-- Layouts that differ at most in their fingerprints and in the order of their sizes. -/
def Alike (l m : Layout) : Prop := ∃ sizes fingerprint,
  l.sizes.Perm sizes ∧ l.sizes.Pairwise Differs ∧
    m = { l with sizes := sizes, fingerprint := fingerprint }

variable {d e : Draft}

theorem together_readField (h : d.Alike e) (field : String × Json) :
    Together Draft.Alike (readField d field) (readField e field) := by
  obtain ⟨sizes, hperm, rfl⟩ := h
  simp only [readField]
  split_ifs
  iterate 4 exact together_map_self (fun _ => ⟨sizes, hperm, rfl⟩) _
  · exact together_map_self (fun _ => ⟨_, .refl _, rfl⟩) _
  · exact ⟨sizes, hperm, rfl⟩
  · trivial

theorem together_foldlM_readField (fields : List (String × Json)) (h : d.Alike e) :
    Together Draft.Alike (fields.foldlM readField d) (fields.foldlM readField e) := by
  induction fields generalizing d e with
  | nil => exact h
  | cons field fields ih =>
    rw [foldlM_cons, foldlM_cons]
    exact (together_readField h field).bind fun _ _ => ih

theorem together_readFields {a b : List Json} (h : a.Perm b) (before after : List (String × Json)) :
    Together Draft.Alike
      ((before ++ ("supportedSizes", .array a) :: after).foldlM readField .empty)
      ((before ++ ("supportedSizes", .array b) :: after).foldlM readField .empty) := by
  rw [foldlM_append, foldlM_append]
  refine (together_self (fun d => rfl) _).bind fun d e hde => ?_
  subst hde
  rw [foldlM_cons, foldlM_cons]
  refine Together.bind (R := Draft.Alike) ?_ fun _ _ => together_foldlM_readField after
  exact (together_mapM_perm h).map fun _ _ hsizes => ⟨_, hsizes, rfl⟩

theorem together_readShape {a b : Json} (h : Reordered a b) :
    Together Draft.Alike (readShape a) (readShape b) := by
  cases h with
  | object before after h =>
    refine (together_readFields h before after).bind fun d e hde => ?_
    obtain ⟨sizes, hperm, rfl⟩ := hde
    refine (together_self (fun _ => rfl) _).bind fun _ _ _ => ?_
    exact (together_self (fun _ => rfl) _).bind fun _ _ _ => ⟨sizes, hperm, rfl⟩
  | array name displayName description padding after h =>
    have hfields := together_readFields h [("name", name), ("displayName", displayName),
      ("description", description), ("defaultPadding", padding)] (["layout"].zip after)
    refine hfields.bind fun d e hde => ?_
    obtain ⟨sizes, hperm, rfl⟩ := hde
    simp only [length_cons]
    split_ifs <;> first | trivial | exact ⟨sizes, hperm, rfl⟩

theorem together_read {a b : Json} (h : Reordered a b) : Together Alike (read a) (read b) := by
  unfold read
  obtain ⟨e, e', ha, hb⟩ | ⟨draft, _, ha, hb, sizes, hperm, rfl⟩ := (together_readShape h).cases <;>
    simp only [ha, hb]
  · trivial
  · split_ifs
    iterate 3 trivial
    refine (together_of_succeeds_iff (succeeds_checkSizes_perm hperm)).bind fun _ _ hchecked => ?_
    have hdiffers := (succeeds_checkSizes_iff.mp ⟨_, hchecked.1⟩).2.2
    refine (together_self (R := Eq) (fun _ => rfl) _).bind ?_
    rintro root _ rfl
    exact ⟨sizes, _, hperm, hdiffers, rfl⟩

theorem Alike.name_eq (h : l.Alike m) : m.name = l.name := by
  obtain ⟨sizes, fingerprint, -, -, rfl⟩ := h
  rfl

theorem Alike.sizesByArea_eq (h : l.Alike m) : m.sizesByArea = l.sizesByArea := by
  obtain ⟨sizes, fingerprint, hperm, hdiffers, rfl⟩ := h
  exact (mergeSort_sizes_perm hperm hdiffers).symm

end Layout

end Widgetry
