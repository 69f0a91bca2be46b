import Mathlib.Data.List.Nodup
import Mathlib.Data.List.Perm.Basic
import Widgetry.Proofs.View.Sketch

/-!
# Laying out sketches

What the operations of a sketch leave: every view has the tag and the children of the sketch, views
outside slots have what their strokes give them, and so have the views of each slot among themselves.
Other views stay as they were.
-/

namespace Widgetry

open List

variable {f : Frame} {v w : Nat} {c : String × List (String × String)} {s : Scene} {op : ViewOp}

namespace Frame

variable {k : Stroke}

theorem views_of_mem_strokes (h : k ∈ f.strokes v w) : ∀ u ∈ k.views, u = v ∨ u = w := by
  simp only [strokes, mem_append, mem_map, mem_flatMap] at h
  rcases h with (⟨p, -, rfl⟩ | ⟨c, -, p, -, rfl⟩) | ⟨m, -, rfl⟩
  · simp
  · simp
  · simp only [mem_singleton]
    rintro u rfl
    cases m.1
    · exact .inl rfl
    · exact .inr rfl

theorem views_of_mem_gap {views : List Nat} (h : k ∈ f.gap views) : ∀ u ∈ k.views, u ∈ views := by
  unfold gap at h
  split at h
  · obtain ⟨m, -, rfl⟩ := mem_map.mp h
    exact fun u hu => mem_of_mem_tail hu
  · simp at h

theorem foldl_outlined_marks (s : Scene) (v w u : Nat) (ms : List (Bool × Mark))
    (x : Option (String × List Nat)) :
    (ms.flatMap fun m => Stroke.sets s ⟨[if m.1 then w else v], m.2⟩).foldl
      (ViewOp.outlined u) x = x := by
  refine ViewOp.foldl_outlined_of_writes (fun op hop => ?_) x
  obtain ⟨m, -, hop⟩ := mem_flatMap.mp hop
  obtain ⟨u, -, name, value, rfl⟩ := Stroke.mem_sets hop
  rfl

theorem foldl_outlined_puts (v u : Nat) (ps : List (String × String))
    (x : Option (String × List Nat)) :
    (ps.map fun p => ViewOp.set v p.1 p.2).foldl (ViewOp.outlined u) x = x := by
  refine ViewOp.foldl_outlined_of_writes (fun op hop => ?_) x
  obtain ⟨p, -, rfl⟩ := mem_map.mp hop
  rfl

theorem foldl_outlined_opening (hc : f.content = none) (s : Scene) (v w : Nat)
    (x : Option (String × List Nat)) :
    (f.opening s v w).foldl (ViewOp.outlined v) x = some (f.tag, []) := by
  simp [opening, hc, foldl_outlined_marks, foldl_outlined_puts, ViewOp.outlined]

theorem foldl_outlined_opening_outer (hc : f.content = some c) (hw : w ≠ v) (s : Scene)
    (x : Option (String × List Nat)) :
    (f.opening s v w).foldl (ViewOp.outlined v) x = some (f.tag, [w]) := by
  simp [opening, hc, foldl_outlined_marks, foldl_outlined_puts, ViewOp.outlined, hw]

theorem foldl_outlined_opening_inner (hc : f.content = some c) (hw : w ≠ v) (s : Scene)
    (x : Option (String × List Nat)) :
    (f.opening s v w).foldl (ViewOp.outlined w) x = some (c.1, []) := by
  simp [opening, hc, foldl_outlined_marks, foldl_outlined_puts, ViewOp.outlined, hw.symm]

theorem view_of_mem_opening (h : op ∈ f.opening s v w) : op.view = v ∨ op.view = w := by
  simp only [opening, cons_append, mem_append, mem_cons, mem_map,
    mem_flatMap, not_mem_nil, or_false] at h
  rcases h with rfl | (⟨p, -, rfl⟩ | ⟨c, -, rfl | ⟨p, -, rfl⟩ | rfl⟩) | ⟨m, -, h⟩
  · exact .inl rfl
  · exact .inl rfl
  · exact .inr rfl
  · exact .inr rfl
  · exact .inl rfl
  · obtain ⟨u, hu, name, value, rfl⟩ := Stroke.mem_sets h
    simp only [mem_singleton] at hu
    subst hu
    cases m.1
    · exact .inl rfl
    · exact .inr rfl

theorem foldl_written_puts (s : Scene) (v u : Nat) (name : String) (ps : List (String × String))
    (x : Option String) :
    (ps.map fun p => ViewOp.set v p.1 p.2).foldl (ViewOp.written u name) x =
      (ps.map fun p => (⟨[v], .put p.1 p.2⟩ : Stroke)).foldl (Stroke.given s u name) x := by
  rw [← Stroke.foldl_written_flatMap_sets, flatMap_map, map_eq_flatMap]
  rfl

theorem foldl_written_opening (s : Scene) (f : Frame) (v w u : Nat) (name : String)
    (x : Option String) :
    (f.opening s v w).foldl (ViewOp.written u name) x =
      (f.strokes v w).foldl (Stroke.given s u name) x := by
  simp only [opening, strokes, cons_append, foldl_cons, foldl_append]
  have hmarks : ∀ y, (f.marks.flatMap fun m =>
      Stroke.sets s ⟨[if m.1 then w else v], m.2⟩).foldl (ViewOp.written u name) y =
      (f.marks.map fun m => (⟨[if m.1 then w else v], m.2⟩ : Stroke)).foldl
        (Stroke.given s u name) y := by
    intro y
    rw [← Stroke.foldl_written_flatMap_sets, flatMap_map]
  rw [hmarks, foldl_written_puts s]
  cases f.content with
  | none => rfl
  | some c =>
    simp only [Option.toList_some, flatMap_cons, flatMap_nil, append_nil,
      foldl_cons, foldl_append, foldl_nil, ViewOp.written, foldl_written_puts s]

end Frame

namespace Sketch

def nested : Sketch → List Nat
  | .plain _ _ _ kids => kids.flatMap nested
  | .slot _ _ _ _ kids => kids.flatMap labels

theorem view_mem_ground (k : Sketch) : k.view ∈ k.ground := by
  cases k with
  | plain v inner f kids => simp [view, ground]
  | slot f site key properties kids => simp [view, ground]

theorem labels_perm (k : Sketch) : k.labels.Perm (k.ground ++ k.nested) := by
  induction k using inductionOn with
  | plain v inner f kids ih =>
    simp only [labels, ground, nested, cons_append, append_assoc]
    refine .cons v (.append_left _ ?_)
    refine .trans ?_ (flatMap_append_perm kids ground nested).symm
    exact Perm.flatMap_left kids ih
  | slot f site key properties kids ih => simp [labels, ground, nested]

theorem flatMap_labels_perm (kids : List Sketch) :
    (kids.flatMap labels).Perm (kids.flatMap ground ++ kids.flatMap nested) :=
  (Perm.flatMap_left kids fun k _ => labels_perm k).trans
    (flatMap_append_perm kids ground nested).symm

variable {k : Sketch} {kids : List Sketch} {name : String} {u n : Nat} {as : List Nat}

theorem mem_labels : v ∈ k.labels ↔ v ∈ k.ground ∨ v ∈ k.nested := by
  rw [(labels_perm k).mem_iff, mem_append]

theorem view_mem_labels (k : Sketch) : k.view ∈ k.labels := mem_labels.mpr (.inl k.view_mem_ground)

theorem not_mem_nested (hk : k.labels.Nodup) (hv : v ∈ k.ground) : v ∉ k.nested := by
  have hnodup := (labels_perm k).nodup_iff.mp hk
  exact fun h => (nodup_append.mp hnodup).2.2 v hv v h rfl

theorem not_mem_nested_of_mem_ground (hkids : (kids.flatMap labels).Nodup)
    (hv : v ∈ kids.flatMap ground) : v ∉ kids.flatMap nested := by
  have hnodup := (flatMap_labels_perm kids).nodup_iff.mp hkids
  exact fun h => (nodup_append.mp hnodup).2.2 v hv v h rfl

theorem views_subset_ground (kids : List Sketch) :
    ∀ v ∈ kids.map view, v ∈ kids.flatMap ground := by
  intro v hv
  obtain ⟨k, hk, rfl⟩ := mem_map.mp hv
  exact mem_flatMap.mpr ⟨k, hk, k.view_mem_ground⟩

theorem views_subset_labels (kids : List Sketch) :
    ∀ v ∈ kids.map view, v ∈ kids.flatMap labels := by
  intro v hv
  obtain ⟨k, hk, rfl⟩ := mem_map.mp hv
  exact mem_flatMap.mpr ⟨k, hk, k.view_mem_labels⟩

theorem labels_eq_cons (k : Sketch) : ∃ rest, k.labels = k.view :: rest := by
  cases k with
  | plain v inner f kids => exact ⟨_, by rw [labels, view]⟩
  | slot f site key properties kids => exact ⟨_, by rw [labels, view]⟩

theorem views_sublist_labels (ks : List Sketch) : (ks.map view).Sublist (ks.flatMap labels) := by
  induction ks with
  | nil => exact .slnil
  | cons k ks ih =>
    obtain ⟨rest, hrest⟩ := k.labels_eq_cons
    rw [map_cons, flatMap_cons, hrest, cons_append]
    exact (ih.trans (sublist_append_right rest _)).cons_cons k.view

theorem nodup_labels_of_mem {ks : List Sketch} (h : (ks.flatMap labels).Nodup) (hk : k ∈ ks) :
    k.labels.Nodup := (nodup_flatMap.mp h).1 k hk

theorem getD_mem (v : Nat) (inner : Option Nat) : inner.getD v ∈ v :: inner.toList := by
  cases inner <;> simp

theorem ops_plain (s : Scene) (v : Nat) (inner : Option Nat) (f : Frame) (kids : List Sketch) :
    (plain v inner f kids).ops s =
      f.opening s v (inner.getD v) ++ filling s (inner.getD v) kids ++
        ((f.around.toList.map (Stroke.mk [inner.getD v]) ++ f.gap (kids.map view)).flatMap
          (Stroke.sets s)) := by
  rw [ops]
  rfl

theorem ops_slot (s : Scene) (f : Frame) (site : SlotSite) (key : SlotKey)
    (properties : List BoundProperty) (kids : List Sketch) :
    (slot f site key properties kids).ops s =
      f.opening s site.view site.view ++ filling s site.view kids ++
        (f.gap (kids.map view)).flatMap (Stroke.sets s) := by
  rw [ops]
  rfl

theorem view_of_mem_filling (ih : ∀ k ∈ kids, ∀ op ∈ k.ops s, op.view ∈ k.labels)
    (h : op ∈ filling s w kids) : op.view = w ∨ op.view ∈ kids.flatMap labels := by
  obtain ⟨k, hk, h⟩ := mem_flatMap.mp h
  rcases mem_append.mp h with h | h
  · exact .inr (mem_flatMap.mpr ⟨k, hk, ih k hk op h⟩)
  · rw [mem_singleton.mp h]
    exact .inl rfl

theorem view_of_mem_gap_sets (h : op ∈ (f.gap (kids.map view)).flatMap (Stroke.sets s)) :
    op.view ∈ kids.map view := by
  obtain ⟨k, hk, h⟩ := mem_flatMap.mp h
  obtain ⟨u, hu, name, value, rfl⟩ := Stroke.mem_sets h
  exact Frame.views_of_mem_gap hk u hu

theorem view_of_mem_ops (k : Sketch) : ∀ op ∈ k.ops s, op.view ∈ k.labels := by
  induction k using inductionOn with
  | plain v inner f kids ih =>
    intro op h
    have howns : ∀ u, u = v ∨ u = inner.getD v → u ∈ (plain v inner f kids).labels := by
      rintro u (rfl | rfl)
      · simp [labels]
      · rw [labels, ← cons_append]
        exact mem_append_left _ (getD_mem v inner)
    have hbelow : ∀ u ∈ kids.flatMap labels, u ∈ (plain v inner f kids).labels := by
      intro u hu
      rw [labels]
      exact mem_cons_of_mem _ (mem_append_right _ hu)
    rw [ops_plain, flatMap_append] at h
    simp only [mem_append] at h
    rcases h with (h | h) | h | h
    · exact howns _ (Frame.view_of_mem_opening h)
    · rcases view_of_mem_filling ih h with h | h
      · exact howns _ (.inr h)
      · exact hbelow _ h
    · obtain ⟨k, hk, h⟩ := mem_flatMap.mp h
      obtain ⟨u, hu, name, value, rfl⟩ := Stroke.mem_sets h
      obtain ⟨m, -, rfl⟩ := mem_map.mp hk
      exact howns _ (.inr (mem_singleton.mp hu))
    · exact hbelow _ (views_subset_labels kids _ (view_of_mem_gap_sets h))
  | slot f site key properties kids ih =>
    intro op h
    rw [labels, mem_cons]
    rw [ops_slot] at h
    simp only [mem_append] at h
    rcases h with (h | h) | h
    · exact .inl ((Frame.view_of_mem_opening h).elim id id)
    · exact view_of_mem_filling ih h
    · exact .inr (views_subset_labels kids _ (view_of_mem_gap_sets h))

theorem foldl_written_filling_of_not_mem (h : v ∉ kids.flatMap labels) (name : String)
    (x : Option String) : (filling s w kids).foldl (ViewOp.written v name) x = x := by
  induction kids with
  | nil => rfl
  | cons k kids ih =>
    rw [flatMap_cons, mem_append, not_or] at h
    have hk : ∀ op ∈ k.ops s, op.view ≠ v := fun op hop he => h.1 (he ▸ view_of_mem_ops k op hop)
    rw [filling, flatMap_cons, ← filling, foldl_append, foldl_append,
      ViewOp.foldl_written_of_ne hk]
    exact ih h.2

theorem foldl_written_filling (hkids : ∀ k ∈ kids, ∀ x, (k.ops s).foldl (ViewOp.written v name) x =
      k.strokes.foldl (Stroke.given s v name) x) (x : Option String) :
    (filling s w kids).foldl (ViewOp.written v name) x =
      (kids.flatMap strokes).foldl (Stroke.given s v name) x := by
  induction kids generalizing x with
  | nil => rfl
  | cons k kids ih =>
    rw [filling, flatMap_cons, ← filling, foldl_append, foldl_append,
      hkids k mem_cons_self, flatMap_cons, foldl_append]
    exact ih (fun k hk => hkids k (mem_cons_of_mem _ hk)) _

/-- Outside slots, building a sketch writes what its strokes give. -/
theorem foldl_written_ops (k : Sketch) :
    u ∉ k.nested → ∀ x, (k.ops s).foldl (ViewOp.written u name) x =
      k.strokes.foldl (Stroke.given s u name) x := by
  induction k using inductionOn with
  | plain v inner f kids ih =>
    intro h x
    rw [nested] at h
    have hkids : ∀ k ∈ kids, u ∉ k.nested := fun k hk hu => h (mem_flatMap.mpr ⟨k, hk, hu⟩)
    simp only [ops_plain, strokes, foldl_append, Frame.foldl_written_opening,
      foldl_written_filling fun k hk => ih k hk (hkids k hk), flatMap_append,
      Stroke.foldl_written_flatMap_sets]
  | slot f site key properties kids ih =>
    intro h x
    rw [nested] at h
    have hgap : ∀ op ∈ (f.gap (kids.map view)).flatMap (Stroke.sets s), op.view ≠ u :=
      fun op hop he => h (he ▸ views_subset_labels kids _ (view_of_mem_gap_sets hop))
    rw [ops_slot, foldl_append, foldl_append, ViewOp.foldl_written_of_ne hgap,
      foldl_written_filling_of_not_mem h, Frame.foldl_written_opening, strokes]

/-- Content views are there where the frames have them. -/
def Shaped : Sketch → Prop
  | .plain _ inner f kids => inner.isSome = f.content.isSome ∧ ∀ k ∈ kids, k.Shaped
  | .slot f _ _ _ kids => f.content = none ∧ ∀ k ∈ kids, k.Shaped

/-- The views of a sketch have its tags and children. -/
def FramedBy (look : Nat → Option (String × List Nat)) : Sketch → Prop
  | .plain v inner f kids =>
      look v = some (f.tag, inner.elim (kids.map view) fun w => [w]) ∧
        (∀ w ∈ inner, look w = f.content.map fun c => (c.1, kids.map view)) ∧
        ∀ k ∈ kids, k.FramedBy look
  | .slot f site _ _ kids =>
      look site.view = some (f.tag, kids.map view) ∧ ∀ k ∈ kids, k.FramedBy look

theorem FramedBy.congr {look look' : Nat → Option (String × List Nat)} (h : k.FramedBy look)
    (hl : ∀ v ∈ k.labels, look' v = look v) : k.FramedBy look' := by
  induction k using inductionOn with
  | plain v inner f kids ih =>
    rw [FramedBy] at h ⊢
    rw [labels] at hl
    refine ⟨(hl v mem_cons_self).trans h.1, ?_, ?_⟩
    · intro w hw
      exact (hl w (mem_cons_of_mem _ (mem_append_left _ (by simpa using hw)))).trans
        (h.2.1 w hw)
    · intro k hk
      refine ih k hk (h.2.2 k hk) fun u hu => hl u ?_
      exact mem_cons_of_mem _ (mem_append_right _ (mem_flatMap.mpr ⟨k, hk, hu⟩))
  | slot f site key properties kids ih =>
    rw [FramedBy] at h ⊢
    rw [labels] at hl
    refine ⟨(hl _ mem_cons_self).trans h.1, ?_⟩
    intro k hk
    refine ih k hk (h.2 k hk) fun u hu => hl u ?_
    exact mem_cons_of_mem _ (mem_flatMap.mpr ⟨k, hk, hu⟩)

/-- The views inside the slots of a sketch have what their strokes give them. -/
def PaintedBy (s : Scene) (read : Nat → String → Option String) : Sketch → Prop
  | .plain _ _ _ kids => ∀ k ∈ kids, k.PaintedBy s read
  | .slot f _ _ _ kids =>
      (∀ v ∈ kids.flatMap ground, ∀ name,
        read v name = (scope f kids).foldl (Stroke.given s v name) none) ∧
      ∀ k ∈ kids, k.PaintedBy s read

theorem PaintedBy.congr {read read' : Nat → String → Option String} (h : k.PaintedBy s read)
    (hr : ∀ v ∈ k.nested, ∀ name, read' v name = read v name) : k.PaintedBy s read' := by
  induction k using inductionOn with
  | plain v inner f kids ih =>
    rw [PaintedBy] at h ⊢
    rw [nested] at hr
    exact fun k hk => ih k hk (h k hk) fun u hu => hr u (mem_flatMap.mpr ⟨k, hk, hu⟩)
  | slot f site key properties kids ih =>
    rw [PaintedBy] at h ⊢
    rw [nested] at hr
    refine ⟨fun v hv name => (hr v ?_ name).trans (h.1 v hv name), fun k hk => ?_⟩
    · obtain ⟨k, hk, hv⟩ := mem_flatMap.mp hv
      exact mem_flatMap.mpr ⟨k, hk, mem_labels.mpr (.inl hv)⟩
    · refine ih k hk (h.2 k hk) fun u hu => hr u ?_
      exact mem_flatMap.mpr ⟨k, hk, mem_labels.mpr (.inr hu)⟩

/-! ## Building -/

theorem foldl_outlined_strokes (s : Scene) (u : Nat) (ks : List Stroke)
    (x : Option (String × List Nat)) :
    (ks.flatMap (Stroke.sets s)).foldl (ViewOp.outlined u) x = x := by
  refine ViewOp.foldl_outlined_of_writes (fun op hop => ?_) x
  obtain ⟨k, -, hop⟩ := mem_flatMap.mp hop
  obtain ⟨v, -, name, value, rfl⟩ := Stroke.mem_sets hop
  rfl

theorem foldl_outlined_filling_parent (h : w ∉ kids.flatMap labels) (x : Option (String × List Nat)) :
    (filling s w kids).foldl (ViewOp.outlined w) x =
      x.map fun y => (y.1, y.2 ++ kids.map view) := by
  induction kids generalizing x with
  | nil => cases x <;> simp [filling]
  | cons k kids ih =>
    rw [flatMap_cons, mem_append, not_or] at h
    have hk : ∀ op ∈ k.ops s, op.view ≠ w := fun op hop he => h.1 (he ▸ view_of_mem_ops k op hop)
    rw [filling, flatMap_cons, ← filling, foldl_append, foldl_append,
      ViewOp.foldl_outlined_of_ne hk, ih h.2]
    cases x <;> simp [ViewOp.outlined]

theorem foldl_outlined_filling_of_not_mem (hw : u ≠ w) (h : u ∉ kids.flatMap labels)
    (x : Option (String × List Nat)) : (filling s w kids).foldl (ViewOp.outlined u) x = x := by
  refine ViewOp.foldl_outlined_of_ne (fun op hop he => ?_) x
  rcases view_of_mem_filling (fun k _ => view_of_mem_ops k) hop with h' | h'
  · exact hw (he ▸ h')
  · exact h (he ▸ h')

theorem framedBy_filling (hkids : ∀ k ∈ kids, ∀ look : Nat → Option (String × List Nat),
      k.FramedBy fun u => (k.ops s).foldl (ViewOp.outlined u) (look u))
    (hw : w ∉ kids.flatMap labels) (hnodup : (kids.flatMap labels).Nodup)
    (look : Nat → Option (String × List Nat)) :
    ∀ k ∈ kids, k.FramedBy fun u => (filling s w kids).foldl (ViewOp.outlined u) (look u) := by
  induction kids generalizing look with
  | nil => simp
  | cons k kids ih =>
    rw [flatMap_cons, mem_append, not_or] at hw
    rw [flatMap_cons] at hnodup
    obtain ⟨-, hrest, hdisjoint⟩ := nodup_append.mp hnodup
    intro j hj
    simp only [filling, flatMap_cons, foldl_append]
    rcases mem_cons.mp hj with rfl | hj
    · refine (hkids j mem_cons_self look).congr fun u hu => ?_
      have huw : u ≠ w := fun he => hw.1 (he ▸ hu)
      refine (foldl_outlined_filling_of_not_mem huw (fun h => hdisjoint u hu u h rfl) _).trans ?_
      simp [ViewOp.outlined, huw.symm]
    · exact ih (fun k hk => hkids k (mem_cons_of_mem _ hk)) hw.2 hrest _ j hj

/-- Building a sketch gives its views their tags and children. -/
theorem framedBy_ops (k : Sketch) (hk : k.Shaped) (hnodup : k.labels.Nodup)
    (look : Nat → Option (String × List Nat)) :
    k.FramedBy fun u => (k.ops s).foldl (ViewOp.outlined u) (look u) := by
  induction k using inductionOn generalizing look with
  | plain v inner f kids ih =>
    rw [Shaped] at hk
    rw [labels] at hnodup
    obtain ⟨hv, hnodup⟩ := nodup_cons.mp hnodup
    obtain ⟨-, hkids, hdisjoint⟩ := nodup_append.mp hnodup
    rw [mem_append, not_or] at hv
    have hsub : ∀ k ∈ kids, k.labels.Nodup := fun k hk => (nodup_flatMap.mp hkids).1 k hk
    have hbelow : ∀ look' : Nat → Option (String × List Nat), ∀ k ∈ kids, k.FramedBy fun u =>
        (filling s (inner.getD v) kids).foldl (ViewOp.outlined u) (look' u) := by
      refine fun look' => framedBy_filling (fun k hk' => ih k hk' (hk.2 k hk') (hsub k hk')) ?_ hkids _
      cases inner with
      | none => exact hv.2
      | some w => exact fun h => hdisjoint w (by simp) w h rfl
    simp only [FramedBy, ops_plain, foldl_append, foldl_outlined_strokes]
    cases inner with
    | none =>
      have hc : f.content = none := by simpa using hk.1.symm
      refine ⟨?_, by simp, hbelow _⟩
      simp only [Option.getD_none, Frame.foldl_outlined_opening hc,
        foldl_outlined_filling_parent hv.2]
      simp
    | some w =>
      obtain ⟨c, hc⟩ := Option.isSome_iff_exists.mp (hk.1.symm.trans rfl)
      have hwv : w ≠ v := fun he => hv.1 (by simp [he])
      have hw : w ∉ kids.flatMap labels := fun h => hdisjoint w (by simp) w h rfl
      refine ⟨?_, ?_, hbelow _⟩
      · simp only [Option.getD_some, Frame.foldl_outlined_opening_outer hc hwv,
          foldl_outlined_filling_of_not_mem hwv.symm hv.2]
        rfl
      · rintro u ⟨⟩
        simp only [Option.getD_some, Frame.foldl_outlined_opening_inner hc hwv,
          foldl_outlined_filling_parent hw, hc]
        simp
  | slot f site key properties kids ih =>
    rw [Shaped] at hk
    rw [labels] at hnodup
    obtain ⟨hv, hkids⟩ := nodup_cons.mp hnodup
    have hsub : ∀ k ∈ kids, k.labels.Nodup := fun k hk => (nodup_flatMap.mp hkids).1 k hk
    simp only [FramedBy, ops_slot, foldl_append, foldl_outlined_strokes]
    refine ⟨?_, framedBy_filling (fun k hk' => ih k hk' (hk.2 k hk') (hsub k hk')) hv hkids _⟩
    rw [Frame.foldl_outlined_opening hk.1, foldl_outlined_filling_parent hv]
    simp

theorem paintedBy_filling (hkids : ∀ k ∈ kids, ∀ read : Nat → String → Option String,
      (∀ u ∈ k.labels, ∀ name, read u name = none) →
      k.PaintedBy s fun u name => (k.ops s).foldl (ViewOp.written u name) (read u name))
    (hnodup : (kids.flatMap labels).Nodup) (read : Nat → String → Option String)
    (hread : ∀ u ∈ kids.flatMap labels, ∀ name, read u name = none) :
    ∀ k ∈ kids, k.PaintedBy s fun u name =>
      (filling s w kids).foldl (ViewOp.written u name) (read u name) := by
  induction kids generalizing read with
  | nil => simp
  | cons k kids ih =>
    rw [flatMap_cons] at hnodup hread
    obtain ⟨-, hrest, hdisjoint⟩ := nodup_append.mp hnodup
    intro j hj
    simp only [filling, flatMap_cons, foldl_append]
    rcases mem_cons.mp hj with rfl | hj
    · refine (hkids j mem_cons_self read fun u hu => hread u (mem_append_left _ hu)).congr
        fun u hu name => ?_
      have hu : u ∉ kids.flatMap labels := fun h =>
        hdisjoint u (mem_labels.mpr (.inr hu)) u h rfl
      exact foldl_written_filling_of_not_mem hu name _
    · refine ih (fun k hk => hkids k (mem_cons_of_mem _ hk)) hrest _ (fun u hu name => ?_) j hj
      have hk : ∀ op ∈ k.ops s, op.view ≠ u := fun op hop he =>
        hdisjoint u (he ▸ view_of_mem_ops k op hop) u hu rfl
      rw [ViewOp.foldl_written_of_ne hk]
      exact hread u (mem_append_right _ hu) name

theorem foldl_written_gap_of_mem_nested (hkids : (kids.flatMap labels).Nodup)
    (hu : u ∈ kids.flatMap nested) (name : String) (x : Option String) :
    ((f.gap (kids.map view)).flatMap (Stroke.sets s)).foldl (ViewOp.written u name) x = x := by
  refine ViewOp.foldl_written_of_ne (fun op hop he => ?_) name x
  exact not_mem_nested_of_mem_ground hkids
    (views_subset_ground kids _ (view_of_mem_gap_sets hop)) (he ▸ hu)

/-- Building a sketch gives the views inside its slots what their strokes give them. -/
theorem paintedBy_ops (k : Sketch) (hnodup : k.labels.Nodup) (read : Nat → String → Option String)
    (hread : ∀ u ∈ k.labels, ∀ name, read u name = none) :
    k.PaintedBy s fun u name => (k.ops s).foldl (ViewOp.written u name) (read u name) := by
  induction k using inductionOn generalizing read with
  | plain v inner f kids ih =>
    rw [labels, ← cons_append] at hnodup hread
    obtain ⟨-, hkids, hdisjoint⟩ := nodup_append.mp hnodup
    have hne : ∀ u ∈ kids.flatMap labels, u ≠ v ∧ u ≠ inner.getD v := fun u hu =>
      ⟨(hdisjoint v mem_cons_self u hu).symm, (hdisjoint _ (getD_mem v inner) u hu).symm⟩
    rw [PaintedBy]
    intro k hk
    have hfill := paintedBy_filling (w := inner.getD v)
      (fun k hk => ih k hk ((nodup_flatMap.mp hkids).1 k hk)) hkids
      (fun u name => (f.opening s v (inner.getD v)).foldl (ViewOp.written u name) (read u name))
      (by
        intro u hu name
        rw [ViewOp.foldl_written_of_ne]
        · exact hread u (mem_append_right _ hu) name
        · rintro op hop rfl
          exact (Frame.view_of_mem_opening hop).elim (hne _ hu).1 (hne _ hu).2) k hk
    refine hfill.congr fun u hu name => ?_
    have hu' : u ∈ kids.flatMap nested := mem_flatMap.mpr ⟨k, hk, hu⟩
    have hul : u ∈ kids.flatMap labels := mem_flatMap.mpr ⟨k, hk, mem_labels.mpr (.inr hu)⟩
    rw [ops_plain, flatMap_append, foldl_append, foldl_append, foldl_append,
      foldl_written_gap_of_mem_nested hkids hu']
    refine ViewOp.foldl_written_of_ne (fun op hop he => ?_) name _
    obtain ⟨m, hm, hop⟩ := mem_flatMap.mp hop
    obtain ⟨m, -, rfl⟩ := mem_map.mp hm
    obtain ⟨w, hw, name, value, rfl⟩ := Stroke.mem_sets hop
    exact (hne u hul).2 (he ▸ mem_singleton.mp hw)
  | slot f site key properties kids ih =>
    rw [labels] at hnodup hread
    obtain ⟨hv, hkids⟩ := nodup_cons.mp hnodup
    have hopening : ∀ u ∈ kids.flatMap labels, ∀ name,
        (f.opening s site.view site.view).foldl (ViewOp.written u name) (read u name) = none := by
      intro u hu name
      rw [ViewOp.foldl_written_of_ne]
      · exact hread u (mem_cons_of_mem _ hu) name
      · rintro op hop rfl
        have he := (Frame.view_of_mem_opening hop).elim id id
        exact hv (he ▸ hu)
    simp only [PaintedBy, ops_slot, foldl_append]
    refine ⟨fun u hu name => ?_, fun k hk => ?_⟩
    · have hn := not_mem_nested_of_mem_ground hkids hu
      have hl : u ∈ kids.flatMap labels :=
        (flatMap_labels_perm kids).mem_iff.mpr (mem_append_left _ hu)
      rw [hopening u hl, foldl_written_filling fun k hk =>
        foldl_written_ops k fun h => hn (mem_flatMap.mpr ⟨k, hk, h⟩),
        Stroke.foldl_written_flatMap_sets, scope, foldl_append]
    · refine (paintedBy_filling (w := site.view)
        (fun k hk => ih k hk ((nodup_flatMap.mp hkids).1 k hk)) hkids _ hopening k hk).congr
        fun u hu name => ?_
      exact foldl_written_gap_of_mem_nested hkids (mem_flatMap.mpr ⟨k, hk, hu⟩) name _

/-! ## Numbers of new views -/

theorem created_strokes (s : Scene) (ks : List Stroke) :
    (ks.flatMap (Stroke.sets s)).filterMap ViewOp.created? = [] := by
  refine filterMap_eq_nil_iff.mpr fun op hop => ?_
  obtain ⟨k, -, hop⟩ := mem_flatMap.mp hop
  obtain ⟨v, -, name, value, rfl⟩ := Stroke.mem_sets hop
  rfl

theorem created_puts (v : Nat) (ps : List (String × String)) :
    (ps.map fun p => ViewOp.set v p.1 p.2).filterMap ViewOp.created? = [] := by
  simp [filterMap_map, ViewOp.created?, Function.comp_def]

theorem created_opening (s : Scene) (f : Frame) (v w : Nat) :
    (f.opening s v w).filterMap ViewOp.created? = v :: f.content.toList.map fun _ => w := by
  have hmarks := created_strokes s (f.marks.map fun m => ⟨[if m.1 then w else v], m.2⟩)
  rw [flatMap_map] at hmarks
  simp only [Frame.opening, cons_append, filterMap_cons, filterMap_append,
    created_puts, hmarks]
  cases f.content <;> simp [ViewOp.created?]

theorem created_filling (hkids : ∀ k ∈ kids, (k.ops s).filterMap ViewOp.created? = k.labels) :
    (filling s w kids).filterMap ViewOp.created? = kids.flatMap labels := by
  induction kids with
  | nil => rfl
  | cons k kids ih =>
    rw [filling, flatMap_cons, ← filling, filterMap_append, filterMap_append,
      hkids k mem_cons_self, ih fun k hk => hkids k (mem_cons_of_mem _ hk)]
    simp [ViewOp.created?]

/-- The views are created in the order of the labels. -/
theorem created_ops (k : Sketch) (hk : k.Shaped) :
    (k.ops s).filterMap ViewOp.created? = k.labels := by
  induction k using inductionOn with
  | plain v inner f kids ih =>
    rw [Shaped] at hk
    rw [ops_plain, filterMap_append, filterMap_append, created_opening,
      created_filling fun k hk' => ih k hk' (hk.2 k hk'), created_strokes, labels]
    cases inner with
    | none =>
      have hc : f.content = none := by simpa using hk.1.symm
      simp [hc]
    | some w =>
      obtain ⟨c, hc⟩ := Option.isSome_iff_exists.mp (hk.1.symm.trans rfl)
      simp [hc]
  | slot f site key properties kids ih =>
    rw [Shaped] at hk
    rw [ops_slot, filterMap_append, filterMap_append, created_opening,
      created_filling fun k hk' => ih k hk' (hk.2 k hk'), created_strokes, labels, hk.1]
    simp

/-- Labels that follow each other from a number on. -/
def Numbered (n : Nat) (labels : List Nat) : Prop := labels = List.range' n labels.length

theorem numbered_append {bs : List Nat} :
    Numbered n (as ++ bs) ↔ Numbered n as ∧ Numbered (n + as.length) bs := by
  unfold Numbered
  rw [length_append, ← range'_append_1]
  constructor
  · intro h
    exact append_inj h (by simp)
  · rintro ⟨ha, hb⟩
    rw [← ha, ← hb]

theorem numbered_cons : Numbered n (v :: as) ↔ v = n ∧ Numbered (n + 1) as := by
  simp [Numbered, range'_succ]

theorem Numbered.nodup (h : Numbered n as) : as.Nodup := by
  rw [h]
  exact nodup_range'

theorem Numbered.mem_iff (h : Numbered n as) : v ∈ as ↔ n ≤ v ∧ v < n + as.length := by
  conv_lhs => rw [h]
  simp [mem_range'_1]

theorem timely_strokes {ks : List Stroke} (h : ∀ k ∈ ks, ∀ v ∈ k.views, v < n) :
    ViewOp.Timely n (ks.flatMap (Stroke.sets s)) := by
  refine ViewOp.timely_of_writes fun op hop => ?_
  obtain ⟨k, hk, hop⟩ := mem_flatMap.mp hop
  obtain ⟨v, hv, name, value, rfl⟩ := Stroke.mem_sets hop
  exact ⟨rfl, h k hk v hv⟩

theorem timely_puts (hv : v < n) (ps : List (String × String)) :
    ViewOp.Timely n (ps.map fun p => ViewOp.set v p.1 p.2) := by
  refine ViewOp.timely_of_writes fun op hop => ?_
  obtain ⟨p, -, rfl⟩ := mem_map.mp hop
  exact ⟨rfl, hv⟩

theorem timely_marks (hv : v < n) (hw : w < n) (s : Scene) (ms : List (Bool × Mark)) :
    ViewOp.Timely n (ms.flatMap fun m => Stroke.sets s ⟨[if m.1 then w else v], m.2⟩) := by
  rw [← flatMap_map (fun m : Bool × Mark => (⟨[if m.1 then w else v], m.2⟩ : Stroke))]
  refine timely_strokes fun k hk u hu => ?_
  obtain ⟨m, -, rfl⟩ := mem_map.mp hk
  rw [mem_singleton.mp hu]
  split
  · exact hw
  · exact hv

theorem timely_opening (hc : f.content = none) (s : Scene) (n : Nat) :
    ViewOp.Timely n (f.opening s n n) := by
  have hn : n < n + 1 := Nat.lt_succ_self n
  simp only [Frame.opening, hc, Option.toList_none, flatMap_nil, append_nil,
    cons_append]
  refine ⟨rfl, ViewOp.timely_append.mpr ⟨timely_puts hn f.base, ?_⟩⟩
  rw [created_puts]
  exact timely_marks hn hn s f.marks

theorem timely_opening_content (hc : f.content = some c) (s : Scene) (n : Nat) :
    ViewOp.Timely n (f.opening s n (n + 1)) := by
  simp only [Frame.opening, hc, Option.toList_some, flatMap_cons, flatMap_nil,
    append_nil, cons_append, append_assoc]
  refine ⟨rfl, ViewOp.timely_append.mpr ⟨timely_puts (by omega) f.base, ?_⟩⟩
  rw [created_puts]
  refine ⟨rfl, ViewOp.timely_append.mpr ⟨timely_puts (by simp) c.2, ?_⟩⟩
  rw [created_puts]
  exact timely_marks (by simp) (by simp) s f.marks

theorem timely_filling
    (hkids : ∀ k ∈ kids, k.Shaped ∧ ∀ n, Numbered n k.labels → ViewOp.Timely n (k.ops s))
    (hn : Numbered n (kids.flatMap labels)) : ViewOp.Timely n (filling s w kids) := by
  induction kids generalizing n with
  | nil => trivial
  | cons k kids ih =>
    rw [flatMap_cons, numbered_append] at hn
    obtain ⟨hk, hrest⟩ := hn
    rw [filling, flatMap_cons, ← filling, append_assoc, ViewOp.timely_append,
      created_ops k (hkids k mem_cons_self).1]
    exact ⟨(hkids k mem_cons_self).2 n hk,
      ih (fun k hk => hkids k (mem_cons_of_mem _ hk)) hrest⟩

theorem timely_gap (h : ∀ v ∈ kids.flatMap labels, v < n) :
    ViewOp.Timely n ((f.gap (kids.map view)).flatMap (Stroke.sets s)) :=
  timely_strokes fun _ hk v hv => h v (views_subset_labels kids v (Frame.views_of_mem_gap hk v hv))

theorem timely_ops (k : Sketch) (hk : k.Shaped) (hn : Numbered n k.labels) :
    ViewOp.Timely n (k.ops s) := by
  induction k using inductionOn generalizing n with
  | plain v inner f kids ih =>
    rw [Shaped] at hk
    rw [labels, ← cons_append, numbered_append] at hn
    obtain ⟨hv, hkids⟩ := hn
    have hopening : ViewOp.Timely n (f.opening s v (inner.getD v)) ∧
        (f.opening s v (inner.getD v)).filterMap ViewOp.created? = v :: inner.toList := by
      obtain ⟨rfl, hv⟩ := numbered_cons.mp hv
      cases inner with
      | none =>
        have hc : f.content = none := by simpa using hk.1.symm
        exact ⟨timely_opening hc s v, by simp [created_opening, hc]⟩
      | some w =>
        obtain ⟨c, hc⟩ := Option.isSome_iff_exists.mp (hk.1.symm.trans rfl)
        obtain ⟨rfl, -⟩ := numbered_cons.mp hv
        exact ⟨timely_opening_content hc s v, by simp [created_opening, hc]⟩
    rw [ops_plain, ViewOp.timely_append, ViewOp.timely_append, filterMap_append,
      hopening.2, created_filling fun k hk' => created_ops k (hk.2 k hk')]
    refine ⟨⟨hopening.1, timely_filling (fun k hk' => ⟨hk.2 k hk', fun n => ih k hk' (hk.2 k hk')⟩)
      hkids⟩, timely_strokes fun j hj u hu => ?_⟩
    have hall : ∀ u ∈ v :: inner.toList ++ kids.flatMap labels,
        u < n + (v :: inner.toList ++ kids.flatMap labels).length := fun u hu =>
      ((Numbered.mem_iff (numbered_append.mpr ⟨hv, hkids⟩)).mp hu).2
    refine hall u ?_
    rcases mem_append.mp hj with hj | hj
    · obtain ⟨m, -, rfl⟩ := mem_map.mp hj
      rw [mem_singleton.mp hu]
      exact mem_append_left _ (getD_mem v inner)
    · exact mem_append_right _
        (views_subset_labels kids u (Frame.views_of_mem_gap hj u hu))
  | slot f site key properties kids ih =>
    rw [Shaped] at hk
    rw [labels] at hn
    obtain ⟨hv, hkids⟩ := numbered_cons.mp hn
    rw [ops_slot, ViewOp.timely_append, ViewOp.timely_append, filterMap_append,
      created_opening, hk.1, created_filling fun k hk' => created_ops k (hk.2 k hk')]
    refine ⟨⟨hv ▸ timely_opening hk.1 s site.view,
      timely_filling (fun k hk' => ⟨hk.2 k hk', fun n => ih k hk' (hk.2 k hk')⟩) hkids⟩,
      timely_gap fun u hu => ?_⟩
    have := (hkids.mem_iff.mp hu).2
    simp only [Option.toList_none, map_nil, length_append, length_singleton]
    omega

end Sketch

end Widgetry
