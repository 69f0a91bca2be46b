import Widgetry.Proofs.View.Renaming

/-!
# Likeness of trees

Two trees look alike from two views when these have the same tag and properties, and their children
look alike one by one. For trees in which a sketch stands under two numberings that comes down to the
properties of its views.
-/

namespace Widgetry

open List

variable {v u w : Nat} {y : String × List Nat} {k : Sketch}

namespace ViewTree

/-- Views that are reached from a view through children. -/
inductive Reaches (t : ViewTree) (v : Nat) : Nat → Prop
  | refl : Reaches t v v
  | child {u w : Nat} (hu : Reaches t v u) (hw : w ∈ t.children u) : Reaches t v w

/-- Two views look alike with all that is below them; their numbers do not matter. -/
inductive Alike (t t' : ViewTree) : Nat → Nat → Prop
  | view {v v' : Nat} {x x' : View} (hx : t.view? v = some x) (hx' : t'.view? v' = some x')
      (htag : x.tag = x'.tag) (hproperties : x.properties = x'.properties)
      (hchildren : Forall₂ (Alike t t') x.children x'.children) : Alike t t' v v'

variable {t t' : ViewTree}

theorem children_of_outline? (h : t.outline? v = some y) : t.children v = y.2 := by
  obtain ⟨x, hx, rfl⟩ := Option.map_eq_some_iff.mp h
  rw [children, hx]
  rfl

theorem alike_iff (ht : t.Sorted) (ht' : t'.Sorted) {v' : Nat} {y' : String × List Nat}
    (h : t.outline? v = some y) (h' : t'.outline? v' = some y') :
    t.Alike t' v v' ↔ y.1 = y'.1 ∧ (∀ name, t.property? v name = t'.property? v' name) ∧
      Forall₂ (t.Alike t') y.2 y'.2 := by
  obtain ⟨x, hx, rfl⟩ := Option.map_eq_some_iff.mp h
  obtain ⟨x', hx', rfl⟩ := Option.map_eq_some_iff.mp h'
  have hp : ∀ name, t.property? v name = x.properties.get? name := fun name => by
    rw [property?, hx]
    rfl
  have hp' : ∀ name, t'.property? v' name = x'.properties.get? name := fun name => by
    rw [property?, hx']
    rfl
  constructor
  · rintro ⟨hx₁, hx₁', htag, hproperties, hchildren⟩
    rw [hx] at hx₁
    rw [hx'] at hx₁'
    obtain rfl := Option.some.inj hx₁
    obtain rfl := Option.some.inj hx₁'
    refine ⟨htag, fun name => ?_, hchildren⟩
    rw [hp, hp', hproperties]
  · rintro ⟨htag, hproperties, hchildren⟩
    refine .view hx hx' htag ((ht v x hx).ext (ht' v' x' hx') fun name => ?_) hchildren
    rw [← hp, ← hp']
    exact hproperties name

theorem Alike.property? {v' : Nat} (h : t.Alike t' v v') (name : String) :
    t.property? v name = t'.property? v' name := by
  obtain ⟨hx, hx', -, hproperties, -⟩ := h
  rw [ViewTree.property?, ViewTree.property?, hx, hx']
  exact congrArg (Table.get? · name) hproperties

theorem Reaches.trans (h : t.Reaches u v) (h' : t.Reaches v w) : t.Reaches u w := by
  induction h' with
  | refl => exact h
  | child _ hw ih => exact ih.child hw

end ViewTree

namespace Sketch

section Reaches

variable {t : ViewTree}

/-- The views of a sketch have no children but views of the sketch. -/
theorem FramedBy.children_subset (h : k.FramedBy t.outline?) (hu : u ∈ k.labels)
    (hw : w ∈ t.children u) : w ∈ k.labels := by
  induction k using inductionOn with
  | plain v inner f kids ih =>
    rw [FramedBy] at h
    rw [labels, ← cons_append] at hu ⊢
    have hkids : ∀ w ∈ kids.map view, w ∈ (v :: inner.toList) ++ kids.flatMap labels :=
      fun w hw => mem_append_right _ (views_subset_labels kids w hw)
    rcases mem_append.mp hu with hu | hu
    · rcases mem_cons.mp hu with rfl | hu
      · rw [ViewTree.children_of_outline? h.1] at hw
        cases inner with
        | none => exact hkids w hw
        | some i =>
          rw [mem_singleton.mp hw]
          exact mem_append_left _ (mem_cons_of_mem _ (mem_singleton_self i))
      · have houtline := h.2.1 u (Option.mem_toList.mp hu)
        cases hc : f.content with
        | none =>
          rw [hc] at houtline
          have hnone : t.view? u = none := Option.map_eq_none_iff.mp houtline
          rw [ViewTree.children, hnone] at hw
          simp at hw
        | some c =>
          rw [hc] at houtline
          rw [ViewTree.children_of_outline? houtline] at hw
          exact hkids w hw
    · obtain ⟨k, hk, hu⟩ := mem_flatMap.mp hu
      exact mem_append_right _ (mem_flatMap.mpr ⟨k, hk, ih k hk (h.2.2 k hk) hu⟩)
  | slot f site key properties kids ih =>
    rw [FramedBy] at h
    rw [labels] at hu ⊢
    rcases mem_cons.mp hu with rfl | hu
    · rw [ViewTree.children_of_outline? h.1] at hw
      exact mem_cons_of_mem _ (views_subset_labels kids w hw)
    · obtain ⟨k, hk, hu⟩ := mem_flatMap.mp hu
      exact mem_cons_of_mem _ (mem_flatMap.mpr ⟨k, hk, ih k hk (h.2 k hk) hu⟩)

theorem FramedBy.outline_inner {inner : Option Nat} {f : Frame} {kids : List Sketch}
    (hs : (plain v inner f kids).Shaped) (h : (plain v inner f kids).FramedBy t.outline?)
    (hw : w ∈ inner) : ∃ tag, t.outline? w = some (tag, kids.map view) := by
  rw [Shaped, Option.mem_def.mp hw] at hs
  rw [FramedBy] at h
  obtain ⟨c, hc⟩ := Option.isSome_iff_exists.mp hs.1.symm
  exact ⟨c.1, by rw [h.2.1 w hw, hc]; rfl⟩

theorem FramedBy.reaches (hs : k.Shaped) (h : k.FramedBy t.outline?) :
    ∀ u ∈ k.labels, t.Reaches k.view u := by
  induction k using inductionOn with
  | plain v inner f kids ih =>
    have hinner : ∀ w ∈ inner, t.Reaches v w ∧ t.children w = kids.map view := by
      intro w hw
      obtain ⟨tag, houtline⟩ := h.outline_inner hs hw
      refine ⟨.child .refl ?_, ViewTree.children_of_outline? houtline⟩
      rw [FramedBy, Option.mem_def.mp hw] at h
      rw [ViewTree.children_of_outline? h.1]
      exact mem_singleton_self w
    have hkids : ∀ k ∈ kids, t.Reaches v k.view := by
      intro k hk
      have hview := mem_map_of_mem (f := view) hk
      cases inner with
      | none =>
        rw [FramedBy] at h
        exact .child .refl (ViewTree.children_of_outline? h.1 ▸ hview)
      | some w =>
        obtain ⟨hreach, hchildren⟩ := hinner w rfl
        exact hreach.child (hchildren ▸ hview)
    rw [FramedBy] at h
    rw [Shaped] at hs
    intro u hu
    rw [labels, ← cons_append] at hu
    rcases mem_append.mp hu with hu | hu
    · rcases mem_cons.mp hu with rfl | hu
      · exact .refl
      · exact (hinner u (Option.mem_toList.mp hu)).1
    · obtain ⟨k, hk, hu⟩ := mem_flatMap.mp hu
      exact (hkids k hk).trans (ih k hk (hs.2 k hk) (h.2.2 k hk) u hu)
  | slot f site key properties kids ih =>
    rw [FramedBy] at h
    rw [Shaped] at hs
    intro u hu
    rw [labels] at hu
    rcases mem_cons.mp hu with rfl | hu
    · exact .refl
    · obtain ⟨k, hk, hu⟩ := mem_flatMap.mp hu
      have hview : k.view ∈ t.children site.view :=
        ViewTree.children_of_outline? h.1 ▸ mem_map_of_mem hk
      have hreach : t.Reaches site.view k.view := .child .refl hview
      exact hreach.trans (ih k hk (hs.2 k hk) (h.2 k hk) u hu)

/-- The views of a sketch are those that are reached from its first one. -/
theorem FramedBy.reaches_iff (hs : k.Shaped) (h : k.FramedBy t.outline?) :
    t.Reaches k.view u ↔ u ∈ k.labels := by
  constructor
  · intro hu
    induction hu with
    | refl => exact k.view_mem_labels
    | child _ hw ih => exact h.children_subset ih hw
  · exact h.reaches hs u

end Reaches

section Alike

variable {t t' : ViewTree} {ρ : Nat → Nat}

/-- Under another numbering the outlines are those of the views renamed. -/
theorem FramedBy.outline_rename (h : k.FramedBy t.outline?) (h' : (k.rename ρ).FramedBy t'.outline?) :
    ∀ u ∈ k.labels, t'.outline? (ρ u) = (t.outline? u).map fun y => (y.1, y.2.map ρ) := by
  induction k using inductionOn with
  | plain v inner f kids ih =>
    rw [rename, FramedBy] at h'
    rw [FramedBy] at h
    rw [labels, ← cons_append]
    intro u hu
    rcases mem_append.mp hu with hu | hu
    · rcases mem_cons.mp hu with rfl | hu
      · rw [h.1, h'.1, map_view_rename]
        cases inner <;> rfl
      · have hu := Option.mem_toList.mp hu
        rw [h.2.1 u hu, h'.2.1 (ρ u) (Option.mem_map_of_mem ρ hu), map_view_rename, Option.map_map]
        rfl
    · obtain ⟨k, hk, hu⟩ := mem_flatMap.mp hu
      exact ih k hk (h.2.2 k hk) (h'.2.2 _ (mem_map_of_mem hk)) u hu
  | slot f site key properties kids ih =>
    rw [rename, FramedBy] at h'
    rw [FramedBy] at h
    rw [labels]
    intro u hu
    rcases mem_cons.mp hu with rfl | hu
    · have hview : t'.outline? (ρ site.view) = _ := h'.1
      rw [h.1, hview, map_view_rename]
      rfl
    · obtain ⟨k, hk, hu⟩ := mem_flatMap.mp hu
      exact ih k hk (h.2 k hk) (h'.2 _ (mem_map_of_mem hk)) u hu

theorem alike_rename_iff (ht : t.Sorted) (ht' : t'.Sorted) (h : t.outline? u = some y)
    (h' : t'.outline? (ρ u) = some (y.1, y.2.map ρ)) :
    t.Alike t' u (ρ u) ↔ (∀ name, t.property? u name = t'.property? (ρ u) name) ∧
      ∀ w ∈ y.2, t.Alike t' w (ρ w) := by
  rw [ViewTree.alike_iff ht ht' h h', forall₂_map_right_iff, forall₂_same]
  simp

/-- A sketch under two numberings looks alike when its views have the same properties. -/
theorem FramedBy.alike_iff (hs : k.Shaped) (ht : t.Sorted) (ht' : t'.Sorted)
    (h : k.FramedBy t.outline?) (h' : (k.rename ρ).FramedBy t'.outline?) :
    t.Alike t' k.view (ρ k.view) ↔
      ∀ u ∈ k.labels, ∀ name, t.property? u name = t'.property? (ρ u) name := by
  induction k using inductionOn with
  | plain v inner f kids ih =>
    have hrename := h.outline_rename h'
    have hkids : (∀ w ∈ kids.map view, t.Alike t' w (ρ w)) ↔
        ∀ u ∈ kids.flatMap labels, ∀ name, t.property? u name = t'.property? (ρ u) name := by
      rw [rename, FramedBy] at h'
      rw [FramedBy] at h
      rw [Shaped] at hs
      simp only [forall_mem_map, forall_mem_flatMap]
      exact forall₂_congr fun k hk =>
        ih k hk (hs.2 k hk) (h.2.2 k hk) (h'.2.2 _ (mem_map_of_mem hk))
    rw [labels] at hrename ⊢
    have hv := hrename v mem_cons_self
    cases inner with
    | none =>
      rw [FramedBy] at h
      rw [h.1] at hv
      rw [view, alike_rename_iff ht ht' h.1 hv, Option.toList_none, nil_append,
        forall_mem_cons]
      exact and_congr_right fun _ => hkids
    | some w =>
      obtain ⟨tag, hinner⟩ := h.outline_inner hs (w := w) rfl
      have hw := hrename w (mem_cons_of_mem _ (mem_append_left _ (mem_singleton_self w)))
      rw [FramedBy] at h
      rw [h.1] at hv
      rw [hinner] at hw
      rw [view, alike_rename_iff ht ht' h.1 hv, Option.toList_some, singleton_append,
        forall_mem_cons, forall_mem_cons, Option.elim_some, forall_mem_singleton,
        alike_rename_iff ht ht' hinner hw]
      exact and_congr_right fun _ => and_congr_right fun _ => hkids
  | slot f site key properties kids ih =>
    have hv := h.outline_rename h' site.view (by rw [labels]; exact mem_cons_self)
    rw [rename, FramedBy] at h'
    rw [FramedBy] at h
    rw [Shaped] at hs
    rw [h.1] at hv
    rw [view, labels, alike_rename_iff ht ht' h.1 hv, forall_mem_cons]
    refine and_congr_right fun _ => ?_
    simp only [forall_mem_map, forall_mem_flatMap]
    exact forall₂_congr fun k hk =>
      ih k hk (hs.2 k hk) (h.2 k hk) (h'.2 _ (mem_map_of_mem hk))

end Alike

end Sketch

namespace Stroke

variable {ρ : Nat → Nat} {s : Scene} {v : Nat}

theorem given_rename {k : Stroke} (h : ∀ w ∈ k.views, ρ w = ρ v → w = v) (name : String)
    (x : Option String) : (k.rename ρ).given s (ρ v) name x = k.given s v name x := by
  have hmem : ρ v ∈ k.views.map ρ ↔ v ∈ k.views := by
    constructor
    · intro hv
      obtain ⟨w, hw, he⟩ := mem_map.mp hv
      exact h w hw he ▸ hw
    · exact mem_map_of_mem
  unfold given rename
  simp only [hmem]

theorem foldl_given_rename {ks : List Stroke} (h : ∀ k ∈ ks, ∀ w ∈ k.views, ρ w = ρ v → w = v)
    (name : String) (x : Option String) :
    (ks.map (rename ρ)).foldl (given s (ρ v) name) x = ks.foldl (given s v name) x := by
  induction ks generalizing x with
  | nil => rfl
  | cons k ks ih =>
    rw [map_cons, foldl_cons, foldl_cons, given_rename (h k mem_cons_self)]
    exact ih (fun k hk => h k (mem_cons_of_mem _ hk)) _

end Stroke

namespace Sketch

variable {s : Scene} {read : Nat → String → Option String}

/-- What is painted under another numbering, read at the old numbers. -/
theorem PaintedBy.of_rename {ρ : Nat → Nat} (h : (k.rename ρ).PaintedBy s read)
    (hρ : ∀ v ∈ k.labels, ∀ w ∈ k.labels, ρ v = ρ w → v = w) :
    k.PaintedBy s fun v name => read (ρ v) name := by
  induction k using inductionOn with
  | plain v inner f kids ih =>
    rw [rename, PaintedBy] at h
    rw [labels, ← cons_append] at hρ
    rw [PaintedBy]
    intro k hk
    have hsub : ∀ u ∈ k.labels, u ∈ (v :: inner.toList) ++ kids.flatMap labels := fun u hu =>
      mem_append_right _ (mem_flatMap.mpr ⟨k, hk, hu⟩)
    exact ih k hk (h _ (mem_map_of_mem hk)) fun u hu w hw => hρ u (hsub u hu) w (hsub w hw)
  | slot f site key properties kids ih =>
    rw [rename, PaintedBy, scope_rename, flatMap_rename ρ fun k _ => ground_rename ρ k] at h
    rw [labels] at hρ
    rw [PaintedBy]
    refine ⟨fun v hv name => ?_, fun k hk => ?_⟩
    · have hground : ∀ u ∈ kids.flatMap ground, u ∈ site.view :: kids.flatMap labels := fun u hu =>
        mem_cons_of_mem _ (ground_subset_labels hu)
      rw [h.1 (ρ v) (mem_map_of_mem hv) name]
      exact Stroke.foldl_given_rename (fun st hst w hw =>
        hρ w (hground w (views_of_mem_scope hst w hw)) v (hground v hv)) name none
    · have hsub : ∀ u ∈ k.labels, u ∈ site.view :: kids.flatMap labels := fun u hu =>
        mem_cons_of_mem _ (mem_flatMap.mpr ⟨k, hk, hu⟩)
      exact ih k hk (h.2 _ (mem_map_of_mem hk)) fun u hu w hw => hρ u (hsub u hu) w (hsub w hw)

theorem PaintedBy.unique {read' : Nat → String → Option String} (h : k.PaintedBy s read)
    (h' : k.PaintedBy s read') : ∀ v ∈ k.nested, ∀ name, read v name = read' v name := by
  induction k using inductionOn with
  | plain v inner f kids ih =>
    rw [PaintedBy] at h h'
    rw [nested]
    intro u hu
    obtain ⟨k, hk, hu⟩ := mem_flatMap.mp hu
    exact ih k hk (h k hk) (h' k hk) u hu
  | slot f site key properties kids ih =>
    rw [PaintedBy] at h h'
    rw [nested]
    intro u hu name
    obtain ⟨k, hk, hu⟩ := mem_flatMap.mp hu
    rcases mem_labels.mp hu with hu | hu
    · have hground : u ∈ kids.flatMap ground := mem_flatMap.mpr ⟨k, hk, hu⟩
      rw [h.1 u hground name, h'.1 u hground name]
    · exact ih k hk (h.2 k hk) (h'.2 k hk) u hu name

end Sketch

end Widgetry
