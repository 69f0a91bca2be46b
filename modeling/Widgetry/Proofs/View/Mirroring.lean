import Mathlib.Data.List.Lattice
import Widgetry.Proofs.Element.Acceptance
import Widgetry.Proofs.View.Freshness

/-!
# Mirroring

The tree of a rendering mirrors its layout and the data. Below the view of an element stand, in order,
the views of its parts: all children of a container, the template once for each item of a loop, the
branch of a conditional that its condition selects. Each of them looks as if it was built alone, with
the item at hand that the part has.
-/

namespace Widgetry

open List

/-! ## Parts -/

/-- A child as it is met below an element: the one at an index, with the item at a path at hand. -/
def Occurrence.child (o : Occurrence) (handed : List (String × String)) (item : List Segment)
    (i : Nat) (e : Element) : Occurrence :=
  ⟨o.path ++ [i], item, o.flow, handed, e⟩

namespace Scene

/-- The items of a loop: those of the array at its path, none when there is no array. -/
def listed (s : Scene) (o : Occurrence) : List Json :=
  match (Build.items? o.item o.element).bind s.context.lookup? with
  | some (.array xs) => xs
  | _ => []

def shownCount (s : Scene) (o : Occurrence) : Nat :=
  match o.element.limit? with
  | some limit => min limit (s.listed o).length
  | none => (s.listed o).length

/-- Whether the condition of an element has a truthy value. One that is missing or faults has no
value. -/
def meets (s : Scene) (o : Occurrence) : Bool :=
  match o.formula s.stage .condition .bool with
  | .ok (some f) =>
      match f.eval s.context with
      | .ok v => v.truthy
      | .error _ => false
  | _ => false

/-- The children that are shown of an element, in order, as they are met. -/
def parts (s : Scene) (o : Occurrence) (handed : List (String × String)) : List Occurrence :=
  match o.element.kind, o.element.children with
  | .column, es | .row, es | .stack, es | .scrollView, es =>
      es.zipIdx.map fun (e, i) => o.child handed o.item i e
  | .forEach, template :: _ =>
      ((Build.items? o.item o.element).map fun path => (List.range (s.shownCount o)).map fun i =>
        o.child handed (path.segments ++ [.index i]) 0 template).getD []
  | .conditional, yes :: rest =>
      if s.meets o then [o.child handed o.item 0 yes]
      else (rest.take 1).map (o.child handed o.item 1)
  | _, _ => []

end Scene

theorem Element.WellFormed.root_items? {e : Element} (h : e.WellFormed) {item : List Segment}
    {path : DataPath} (hpath : Build.items? item e = some path) : path.root = .data := by
  unfold Build.items? at hpath
  split at hpath
  · rename_i b hget
    obtain ⟨b', hb, hscope⟩ := h.values .items _ (Table.mem_of_get? hget)
    obtain rfl := PropertyValue.binding.inj hb
    unfold Binding.absolute? at hpath
    rcases hscope with hscope | hscope <;> rw [hscope] at hpath <;> cases hpath <;> rfl
  · cases hpath

namespace Scene

variable {s : Scene} {o : Occurrence}

theorem itemCount_items? (h : o.element.WellFormed) :
    s.itemCount (Build.items? o.item o.element) = (s.listed o).length := by
  unfold itemCount listed
  cases hpath : Build.items? o.item o.element with
  | none => rfl
  | some path =>
    rw [Option.filter_some, if_pos (by rw [h.root_items? hpath]; rfl)]
    simp only [Option.bind_some]
    cases s.context.lookup? path with
    | none => rfl
    | some v => cases v <;> rfl

theorem key_forEach (h : o.element.WellFormed) (spacing : Option Formula) :
    s.key (.forEach (Build.items? o.item o.element) o.element.limit? spacing) =
      .count (s.shownCount o) := by
  unfold shownCount
  simp only [key, itemCount_items? h]
  cases o.element.limit? with
  | none => rfl
  | some limit => exact congrArg SlotKey.count (Nat.min_comm _ _)

theorem holds_condition {condition : Option Formula}
    (h : o.formula s.stage .condition .bool = .ok condition) :
    s.holds (condition.getD ⟨o.item, .literal (.bool false)⟩) = s.meets o := by
  unfold meets
  rw [h]
  cases condition with
  | none => rfl
  | some f =>
    simp only [Option.getD_some, holds, value?]
    cases f.eval s.context <;> rfl

variable {handed : List (String × String)} {q : Occurrence}

/-- The item of a part of a loop is the one at its index. -/
theorem at?_item_of_parts (h : o.element.WellFormed) (hkind : o.element.kind = .forEach) {i : Nat}
    (hq : (s.parts o handed)[i]? = some q) : s.context.data.at? q.item = (s.listed o)[i]? := by
  unfold parts at hq
  rw [hkind] at hq
  cases hchildren : o.element.children with
  | nil =>
    rw [hchildren] at hq
    cases hq
  | cons template rest =>
    rw [hchildren] at hq
    cases hpath : Build.items? o.item o.element with
    | none =>
      rw [hpath] at hq
      cases hq
    | some path =>
      rw [hpath] at hq
      simp only [Option.map_some, Option.getD_some, List.getElem?_map] at hq
      obtain ⟨j, hj, rfl⟩ := Option.map_eq_some_iff.mp hq
      obtain rfl : i = j := by simpa using (List.getElem?_eq_some_iff.mp hj).2
      have hroot : s.context.lookup? path = s.context.data.at? path.segments := by
        rw [Context.lookup?, h.root_items? hpath]
      unfold listed
      rw [hpath, Option.bind_some, hroot]
      simp only [Occurrence.child, Json.at?_append]
      cases s.context.data.at? path.segments with
      | none => rfl
      | some v => cases v <;> simp [Json.at?]

/-- A binding to the item reads, in a part of a loop, from the item at the index of the part. -/
theorem lookup?_item_of_parts (h : o.element.WellFormed) (hkind : o.element.kind = .forEach)
    {i : Nat} (hq : (s.parts o handed)[i]? = some q) (segments : List Segment) :
    ((Binding.mk .item segments).absolute? q.item).bind s.context.lookup? =
      (s.listed o)[i]?.bind fun x => x.at? segments := by
  rw [← at?_item_of_parts h hkind hq, ← Json.at?_append]
  rfl

end Scene

namespace Occurrence

variable {s : Scene} {o : Occurrence} {f : Frame}

theorem kids_eq_parts (hframe : o.frame s.stage = .ok f) (h : o.element.WellFormed) :
    o.kids s f = s.parts o f.handed := by
  obtain ⟨mods, own, slot, -, -, hslot, rfl⟩ := frame_eq_ok hframe
  unfold kids Scene.parts
  unfold slotKind at hslot
  cases hkind : o.element.kind with
  | forEach =>
    rw [hkind] at hslot
    obtain rfl := Except.ok.inj hslot
    simp only [composed, Scene.key_forEach h]
    cases hchildren : o.element.children with
    | nil => cases Build.items? o.item o.element <;> rfl
    | cons template rest => cases Build.items? o.item o.element <;> rfl
  | conditional =>
    rw [hkind] at hslot
    obtain ⟨condition, hcondition, hslot⟩ := exists_of_bind_eq_ok hslot
    obtain rfl := Except.ok.inj hslot
    simp only [composed, Scene.key, Scene.holds_condition hcondition]
    cases s.meets o with
    | true => cases o.element.children <;> rfl
    | false =>
      cases o.element.children with
      | nil => rfl
      | cons yes rest => cases rest <;> rfl
  | _ =>
    rw [hkind] at hslot
    obtain rfl := Except.ok.inj hslot
    simp [members, composed, hkind, Kind.stacks, child]

end Occurrence

/-! ## Parts in a tree -/

def Frame.gapBefore (f : Frame) (i : Nat) : Option Mark := if i = 0 then none else f.between

variable {inner : Option Nat} {after : List Stroke} {site : SlotSite} {key : SlotKey}
  {properties : List BoundProperty}

namespace Sketch

variable {s : Scene} {t : ViewTree} {f : Frame} {kids : List Sketch} {k : Sketch} {i v : Nat}

theorem views_of_mem_marks {ms : List Mark} {st : Stroke} (h : st ∈ ms.map (Stroke.mk [v])) :
    ∀ u ∈ st.views, u = v := by
  obtain ⟨m, -, rfl⟩ := mem_map.mp h
  exact fun u hu => mem_singleton.mp hu

section

variable (hn : (kids.flatMap labels).Nodup)

include hn

theorem foldl_given_flatMap_strokes (hk : kids[i]? = some k) (hv : v ∈ k.ground) (name : String)
    (x : Option String) :
    (kids.flatMap strokes).foldl (Stroke.given s v name) x =
      k.strokes.foldl (Stroke.given s v name) x := by
  have hlabel : v ∈ k.labels := mem_labels.mpr (.inl hv)
  induction kids generalizing i x with
  | nil => cases hk
  | cons k' kids ih =>
    rw [flatMap_cons] at hn ⊢
    obtain ⟨-, hrest, hdisjoint⟩ := nodup_append.mp hn
    rw [foldl_append]
    cases i with
    | zero =>
      obtain rfl := Option.some.inj hk
      refine Stroke.foldl_given_of_not_touches (fun st hst ht => ?_) _
      obtain ⟨k', hk', hst⟩ := mem_flatMap.mp hst
      have hother : v ∈ k'.labels := mem_labels.mpr (.inl (views_of_mem_strokes hst v ht.1))
      exact hdisjoint v hlabel v (mem_flatMap.mpr ⟨k', hk', hother⟩) rfl
    | succ i =>
      have hmem : v ∈ kids.flatMap labels :=
        mem_flatMap.mpr ⟨k, mem_of_getElem? hk, hlabel⟩
      have hout : ∀ st ∈ k'.strokes, ¬ st.Touches v name := fun st hst ht =>
        hdisjoint v (mem_labels.mpr (.inl (views_of_mem_strokes hst v ht.1))) v hmem rfl
      rw [ih hrest hk, Stroke.foldl_given_of_not_touches hout]

theorem eq_of_mem_labels {k' : Sketch} (hk : k ∈ kids) (hk' : k' ∈ kids) (hv : v ∈ k.labels)
    (hv' : v ∈ k'.labels) : k = k' := by
  have : Std.Symm (Function.onFun List.Disjoint labels) := ⟨fun _ _ h => h.symm⟩
  by_contra hne
  exact (nodup_flatMap.mp hn).2.forall hk hk' hne hv hv'

/-- Of the views in a sketch only its own is one of the views of children, and the gap is made on it
unless it is the first. -/
theorem mem_tail_views_iff (hk : kids[i]? = some k) (hv : v ∈ k.ground) :
    v ∈ (kids.map view).tail ↔ i ≠ 0 ∧ v = k.view := by
  have hlabel : v ∈ k.labels := mem_labels.mpr (.inl hv)
  cases kids with
  | nil => cases hk
  | cons k' kids =>
    rw [flatMap_cons] at hn
    obtain ⟨-, hrest, hdisjoint⟩ := nodup_append.mp hn
    rw [map_cons, tail_cons]
    cases i with
    | zero =>
      obtain rfl := Option.some.inj hk
      refine iff_of_false (fun hmem => ?_) (fun h => h.1 rfl)
      exact hdisjoint v hlabel v (views_subset_labels kids v hmem) rfl
    | succ i =>
      have hk : k ∈ kids := mem_of_getElem? hk
      constructor
      · intro hmem
        obtain ⟨k', hk', rfl⟩ := mem_map.mp hmem
        obtain rfl := eq_of_mem_labels hrest hk hk' hlabel k'.view_mem_labels
        exact ⟨Nat.succ_ne_zero i, rfl⟩
      · rintro ⟨-, rfl⟩
        exact mem_map_of_mem hk

theorem foldl_given_gap (hk : kids[i]? = some k) (hv : v ∈ k.ground) (name : String)
    (x : Option String) :
    (f.gap (kids.map view)).foldl (Stroke.given s v name) x =
      ((f.gapBefore i).toList.map (Stroke.mk [k.view])).foldl (Stroke.given s v name) x := by
  have htail := mem_tail_views_iff hn hk hv
  unfold Frame.gap Frame.gapBefore
  by_cases hi : i = 0
  · rw [if_pos hi, Option.toList_none, map_nil, foldl_nil]
    refine Stroke.foldl_given_of_not_touches (fun st hst ht => ?_) x
    split at hst
    · obtain ⟨m, -, rfl⟩ := mem_map.mp hst
      exact (htail.mp ht.1).1 hi
    · cases hst
  · have hlength : (kids.map view).length > 1 := by
      have := (List.getElem?_eq_some_iff.mp hk).1
      rw [length_map]
      omega
    rw [if_neg hi, if_pos hlength]
    cases f.between with
    | none => rfl
    | some m => simp [Stroke.given, htail, hi]

theorem foldl_given_scope (hk : kids[i]? = some k) (hv : v ∈ k.ground) (name : String) :
    (scope f kids).foldl (Stroke.given s v name) none =
      (k.strokes ++ (f.gapBefore i).toList.map (Stroke.mk [k.view])).foldl
        (Stroke.given s v name) none := by
  rw [scope, foldl_append, foldl_append, foldl_given_flatMap_strokes hn hk hv,
    foldl_given_gap hn hk hv]

end

/-- A child of an element without a slot is shown with the gap before it. -/
theorem Shown.kid_plain {w : Nat} (h : (plain w inner f kids).Shown s t after)
    (hn : (plain w inner f kids).labels.Nodup) (hafter : ∀ st ∈ after, ∀ u ∈ st.views, u = w)
    (hk : kids[i]? = some k) : k.Shown s t ((f.gapBefore i).toList.map (Stroke.mk [k.view])) := by
  have hmem := mem_of_getElem? hk
  rw [labels, ← cons_append] at hn
  obtain ⟨-, hkids, hdisjoint⟩ := nodup_append.mp hn
  have hframed := h.framed
  have hground := h.ground
  have hnested := h.nested
  rw [FramedBy] at hframed
  rw [PaintedBy] at hnested
  rw [Sketch.ground, strokes] at hground
  refine ⟨hframed.2.2 k hmem, fun v hv name => ?_, hnested k hmem⟩
  have hlabel : v ∈ kids.flatMap labels :=
    mem_flatMap.mpr ⟨k, hmem, mem_labels.mpr (.inl hv)⟩
  have hne : ∀ u ∈ w :: inner.toList, v ≠ u := fun u hu he => hdisjoint u hu v hlabel he.symm
  -- what stands on the view around the children, before them or after, does not touch them
  have hbefore : ∀ st ∈ f.strokes w (inner.getD w), ¬ st.Touches v name := fun st hst ht =>
    (Frame.views_of_mem_strokes hst v ht.1).elim (hne w mem_cons_self) (hne _ (getD_mem w inner))
  have haround : ∀ st ∈ f.around.toList.map (Stroke.mk [inner.getD w]), ¬ st.Touches v name :=
    fun st hst ht => hne _ (getD_mem w inner) (views_of_mem_marks hst v ht.1)
  have hlast : ∀ st ∈ after, ¬ st.Touches v name := fun st hst ht =>
    hne w mem_cons_self (hafter st hst v ht.1)
  have hown : v ∈ w :: (inner.toList ++ kids.flatMap Sketch.ground) :=
    mem_cons_of_mem _ (mem_append_right _ (mem_flatMap.mpr ⟨k, hmem, hv⟩))
  rw [hground v hown, ← foldl_given_scope hkids hk hv, scope]
  simp only [foldl_append]
  rw [Stroke.foldl_given_of_not_touches hlast, Stroke.foldl_given_of_not_touches hbefore,
    Stroke.foldl_given_of_not_touches haround]

theorem Shown.kid_slot (h : (slot f site key properties kids).Shown s t after)
    (hn : (kids.flatMap labels).Nodup) (hk : kids[i]? = some k) :
    k.Shown s t ((f.gapBefore i).toList.map (Stroke.mk [k.view])) := by
  have hmem := mem_of_getElem? hk
  have hframed := h.framed
  have hnested := h.nested
  rw [FramedBy] at hframed
  rw [PaintedBy] at hnested
  refine ⟨hframed.2 k hmem, fun v hv name => ?_, hnested.2 k hmem⟩
  rw [hnested.1 v (mem_flatMap.mpr ⟨k, hmem, hv⟩), foldl_given_scope hn hk hv]

/-- Trees that show one sketch under two numberings look alike. -/
theorem Shown.alike {t' : ViewTree} {ρ : Nat → Nat} (h : k.Shown s t after)
    (h' : (k.rename ρ).Shown s t' (after.map (Stroke.rename ρ))) (hs : k.Shaped) (ht : t.Sorted)
    (ht' : t'.Sorted) (hρ : ∀ v ∈ k.labels, ∀ w ∈ k.labels, ρ v = ρ w → v = w)
    (hafter : ∀ st ∈ after, ∀ v ∈ st.views, v ∈ k.ground) : t.Alike t' k.view (ρ k.view) := by
  refine (h.framed.alike_iff hs ht ht' h'.framed).mpr fun u hu name => ?_
  rcases mem_labels.mp hu with hground | hnested
  · have hground' : ρ u ∈ (k.rename ρ).ground := by
      rw [ground_rename]
      exact mem_map_of_mem hground
    rw [h.ground u hground, h'.ground (ρ u) hground', strokes_rename, ← map_append]
    refine (Stroke.foldl_given_rename (fun st hst w hw => ?_) name none).symm
    have hw : w ∈ k.ground := (mem_append.mp hst).elim
      (fun hst => views_of_mem_strokes hst w hw) fun hst => hafter st hst w hw
    exact hρ w (mem_labels.mpr (.inl hw)) u hu
  · exact h.nested.unique (h'.nested.of_rename hρ) u hnested name

end Sketch

namespace ViewTree

/-- A view looks like the one that is built for an element alone, with a gap made on it. -/
def LooksBuilt (s : Scene) (t : ViewTree) (o : Occurrence) (gap : Option Mark) (v : Nat) : Prop :=
  ∃ u c, (Build.occurrence s o).run ⟨.empty, [], .empty⟩ = (.ok u, c) ∧
    t.Alike (c.tree.replay ((gap.toList.map (Stroke.mk [u])).flatMap (Stroke.sets s))) v u

/-- The views of parts stand under the view of an element; in a scroll view, under its content. -/
def Encloses (t : ViewTree) (target : ViewTarget) (kind : Kind) (v : Nat) (views : List Nat) :
    Prop :=
  if kind = .scrollView then
    ∃ inner, t.outline? v = some (target.tag kind, [inner]) ∧
      t.outline? inner = some (target.scrollContentTag, views)
  else t.outline? v = some (target.tag kind, views)

/-- A view stands for an element when the views of its parts stand under it, in order, for these, and
each looks as if it was built with its own item at hand. -/
inductive Mirrors (s : Scene) (t : ViewTree) : Occurrence → Nat → Prop
  | view {o : Occurrence} {v : Nat} {f : Frame} {views : List Nat}
      (hframe : o.frame s.stage = .ok f)
      (hencloses : t.Encloses s.target o.element.kind v views) (hnodup : views.Nodup)
      (hparts : Forall₂ (Mirrors s t) (s.parts o f.handed) views)
      (hbuilt : ∀ (i : Nat) (q : Occurrence) (w : Nat), (s.parts o f.handed)[i]? = some q →
        views[i]? = some w → t.LooksBuilt s q (f.gapBefore i) w)
      (hitem : o.element.kind = .forEach → ∀ (i : Nat) (q : Occurrence),
        (s.parts o f.handed)[i]? = some q → ∀ segments,
          ((Binding.mk .item segments).absolute? q.item).bind s.context.lookup? =
            (s.listed o)[i]?.bind fun x => x.at? segments) : Mirrors s t o v

end ViewTree

namespace Sketch

variable {s : Scene} {t : ViewTree} {o : Occurrence} {f : Frame} {k : Sketch} {kids : List Sketch}
  {v : Nat}

/-- What a tree shows of an element looks as if it was built alone. -/
theorem Shown.looksBuilt {gap : Option Mark}
    (h : k.Shown s t (gap.toList.map (Stroke.mk [k.view]))) (ht : t.Sorted)
    (hk : k.Drawn s.stage o) (hc : k.Current s) (hn : k.labels.Nodup) :
    t.LooksBuilt s o gap k.view := by
  have hdraws := Build.draws s o ⟨.empty, [], .empty⟩
  simp only [hk.refusal_eq_none hc] at hdraws
  obtain ⟨k', hk', hc', hn', hemits⟩ := hdraws
  -- the sketch that is built alone is the one shown under another numbering
  obtain ⟨hlength, hrename⟩ := hk.resembles hk' hc hc'
  obtain ⟨ρ, hρ⟩ := exists_renaming hn hlength
  obtain rfl := hrename ρ hρ
  have hinj : ∀ v ∈ k.labels, ∀ w ∈ k.labels, ρ v = ρ w → v = w := by
    have hnodup := hn'.nodup
    rw [← hρ] at hnodup
    exact fun v hv w hw he => inj_on_of_nodup_map hnodup hv hw he
  have hgap : ∀ {k : Sketch}, ∀ st ∈ gap.toList.map (Stroke.mk [k.view]), ∀ v ∈ st.views,
      v ∈ k.ground := fun {k} st hst v hv => views_of_mem_marks hst v hv ▸ k.view_mem_ground
  have hshown := shown_replay (s := s) hk'.shaped hn' hgap
  have hafter : gap.toList.map (Stroke.mk [(k.rename ρ).view]) =
      (gap.toList.map (Stroke.mk [k.view])).map (Stroke.rename ρ) := by
    rw [map_map, view_rename]
    rfl
  refine ⟨(k.rename ρ).view, _, hemits, ?_⟩
  rw [Canvas.tree_add, ← ViewTree.replay_append]
  rw [hafter] at hshown ⊢
  rw [view_rename]
  exact h.alike hshown hk.shaped ht (ViewTree.sorted_empty.replay _) hinj hgap

theorem encloses_plain (hframe : o.frame s.stage = .ok f) (hinner : inner.isSome = f.content.isSome)
    (h : (plain v inner f kids).FramedBy t.outline?) :
    t.Encloses s.target o.element.kind v (kids.map view) := by
  obtain ⟨mods, own, slot, -, -, -, rfl⟩ := Occurrence.frame_eq_ok hframe
  rw [FramedBy] at h
  obtain ⟨houtline, hcontent, -⟩ := h
  unfold ViewTree.Encloses
  split
  · rename_i hkind
    simp only [Occurrence.composed, hkind, Stage.content, Option.isSome_some] at hinner hcontent
    obtain ⟨w, rfl⟩ := Option.isSome_iff_exists.mp hinner
    exact ⟨w, houtline, hcontent w rfl⟩
  · rename_i hkind
    have hnone : s.stage.content o.flow o.element.kind = none := by
      unfold Stage.content
      split
      · rename_i hscroll
        exact absurd hscroll hkind
      · rfl
    simp only [Occurrence.composed, hnone, Option.isSome_none, Option.isSome_eq_false_iff,
      Option.isNone_iff_eq_none] at hinner
    subst hinner
    exact houtline

theorem encloses_slot {kind : SlotKind} (hframe : o.frame s.stage = .ok f)
    (hslot : f.slot = some kind) (h : (slot f site key properties kids).FramedBy t.outline?) :
    t.Encloses s.target o.element.kind site.view (kids.map view) := by
  obtain ⟨mods, own, slot, -, -, hkind, rfl⟩ := Occurrence.frame_eq_ok hframe
  obtain rfl : slot = some kind := hslot
  rw [FramedBy] at h
  unfold ViewTree.Encloses
  rw [if_neg]
  · exact h.1
  · rcases Occurrence.kind_of_slotKind hkind with hk | hk <;> rw [hk] <;> decide

/-- An element is mirrored when its children are shown and mirrored. -/
theorem mirrors_of_kids (hframe : o.frame s.stage = .ok f) (hformed : o.element.WellFormed)
    (ht : t.Sorted) (hencloses : t.Encloses s.target o.element.kind v (kids.map view))
    (hkids : Forall₂ (Drawn s.stage) (o.kids s f) kids) (hc : ∀ k ∈ kids, k.Current s)
    (hn : (kids.flatMap labels).Nodup)
    (hshown : ∀ (i : Nat) (k : Sketch), kids[i]? = some k →
      k.Shown s t ((f.gapBefore i).toList.map (Stroke.mk [k.view])))
    (hmirrors : ∀ k ∈ kids, ∀ (i : Nat) (p : Occurrence), p.element ∈ o.element.children →
      k.Drawn s.stage p → k.Shown s t ((f.gapBefore i).toList.map (Stroke.mk [k.view])) →
        t.Mirrors s p k.view) : t.Mirrors s o v := by
  have hchild : ∀ p ∈ o.kids s f, p.element ∈ o.element.children := fun p hp =>
    Occurrence.element_mem_of_mem_kids hp
  rw [Occurrence.kids_eq_parts hframe hformed] at hkids hchild
  obtain ⟨hlength, hdrawn⟩ := forall₂_iff_getElem?.mp hkids
  refine .view hframe hencloses (hn.sublist (views_sublist_labels kids)) ?_ ?_ fun hkind i q hq =>
    Scene.lookup?_item_of_parts hformed hkind hq
  · rw [forall₂_map_right_iff]
    refine forall₂_iff_getElem?.mpr ⟨hlength, fun i q k hq hk => ?_⟩
    exact hmirrors k (mem_of_getElem? hk) i q (hchild q (mem_of_getElem? hq))
      (hdrawn i q k hq hk) (hshown i k hk)
  · intro i q w hq hw
    rw [List.getElem?_map] at hw
    obtain ⟨k, hk, rfl⟩ := Option.map_eq_some_iff.mp hw
    have hmem := mem_of_getElem? hk
    exact (hshown i k hk).looksBuilt ht (hdrawn i q k hq hk) (hc k hmem) (nodup_labels_of_mem hn hmem)

theorem Shown.mirrors (h : k.Shown s t after) (ht : t.Sorted) (hk : k.Drawn s.stage o)
    (hc : k.Current s) (hn : k.labels.Nodup) (hafter : ∀ st ∈ after, ∀ u ∈ st.views, u = k.view)
    (hformed : ∀ x ∈ o.element.walk, x.WellFormed) : t.Mirrors s o k.view := by
  induction k using inductionOn generalizing o after with
  | plain v inner f kids ih =>
    cases hk with
    | plain hframe hslot hinner hkids =>
      obtain ⟨hown, hbelow⟩ := Element.forall_mem_walk.mp hformed
      rw [Current] at hc
      have hlabels := hn
      rw [labels, ← cons_append] at hlabels
      have hrest := (nodup_append.mp hlabels).2.1
      have hdrawn : Forall₂ (Drawn s.stage) (o.kids s f) kids := by
        rw [Occurrence.kids, hslot]
        exact hkids
      refine mirrors_of_kids hframe hown ht (encloses_plain hframe hinner h.framed) hdrawn hc hrest
        (fun i k hk => h.kid_plain hn hafter hk) fun k hk i p hp hd hshown => ?_
      exact ih k hk hshown hd (hc k hk) (nodup_labels_of_mem hrest hk)
        (fun st hst => views_of_mem_marks hst) (hbelow _ hp)
  | slot f site key properties kids ih =>
    cases hk with
    | @slot _ v _ kind _ _ _ hframe hslot hproperties hkids =>
      obtain ⟨hown, hbelow⟩ := Element.forall_mem_walk.mp hformed
      rw [Current] at hc
      obtain ⟨rfl, -, hc⟩ := hc
      rw [labels] at hn
      have hrest := (nodup_cons.mp hn).2
      have hdrawn : Forall₂ (Drawn s.stage) (o.kids s f) kids := by
        rw [Occurrence.kids, hslot]
        exact hkids
      refine mirrors_of_kids hframe hown ht (encloses_slot hframe hslot h.framed) hdrawn hc hrest
        (fun i k hk => h.kid_slot hrest hk) fun k hk i p hp hd hshown => ?_
      exact ih k hk hshown hd (hc k hk) (nodup_labels_of_mem hrest hk)
        (fun st hst => views_of_mem_marks hst) (hbelow _ hp)

end Sketch

namespace Renderer

variable {r : Renderer} {l : Layout} {size : Size} {c : Context} {R : Rendering}

/-- The tree of a rendering mirrors an accepted layout and the data. -/
theorem render_mirrors {document : Json} {log : List ViewOp} (hread : Layout.read document = .ok l)
    (h : r.render l size c = .ok (R, log)) :
    R.tree.Mirrors (r.scene size c) l.occurrence R.root := by
  cases hr : l.occurrence.refusal (r.scene size c) with
  | some e =>
    rw [render_eq_error hr] at h
    cases h
  | none =>
    obtain ⟨tree, retained, k, log', hrender, hdepicts, hcurrent, hpainted⟩ := exists_render hr
    rw [hrender] at h
    cases h
    have hnested := (Sketch.paintedSince_singleton hcurrent.slots).mp hpainted.nested
    have hshown : k.Shown (r.scene size c) tree (l.padding (r.scene size c).stage k.view) :=
      ⟨hdepicts.placed.framed k mem_cons_self, hpainted.ground, hnested⟩
    have hnodup : k.labels.Nodup := by simpa using hdepicts.placed.nodup
    exact hshown.mirrors hdepicts.placed.sorted hdepicts.drawn hcurrent.slots hnodup
      (fun st hst => Layout.views_of_mem_padding hst) (Layout.wellFormed_of_read hread)

/-- At most two teams with their members, and a note below a team that is open. -/
def teamDocument : Json := .object
  [("layout", .object
     [("itemTemplate", .object
       [("children", .array
         [.object
           [("itemTemplate", .object [("text", .string "item.name"), ("type", .string "label")]),
            ("items", .string "item.members"), ("type", .string "forEach")],
          .object
           [("condition", .array [.string "get", .string "item.open"]),
            ("then", .object [("text", .string "open"), ("type", .string "label")]),
            ("type", .string "conditional")]]),
        ("type", .string "column")]),
      ("items", .string "data.teams"), ("limit", .number (.integer 2)),
      ("spacing", .number (.integer 4)), ("type", .string "forEach")]),
   ("name", .string "Teams"),
   ("supportedSizes", .array [.object [("height", .number (.integer 40)),
     ("id", .string "small"), ("width", .number (.integer 80))]])]

/-- An open team of two, one of which nothing is known, and a third one. -/
def teamContext : Context :=
  ⟨.object [("teams", .array
    [.object [("members", .array [.object [("name", .string "Ada")], .object [("name", .string "Bo")]]),
       ("open", .bool true)],
     .object [], .object [("members", .array [.object [("name", .string "Cy")]])]])], []⟩

/-- The third team is beyond the limit; the second has neither members nor a note. -/
theorem render_mirrors_teams : ∃ l R log, Layout.read teamDocument = .ok l ∧
    render ⟨.html, .builtin⟩ l ⟨100, 100⟩ teamContext = .ok (R, log) ∧
    ((R.tree.children R.root).map fun v => (R.tree.children v).map fun w =>
      (R.tree.children w).map fun x => R.tree.property? x "textContent") =
        [[[some "Ada", some "Bo"], [some "open"]], [[], []]] ∧
    R.tree.Mirrors (scene ⟨.html, .builtin⟩ ⟨100, 100⟩ teamContext) l.occurrence R.root := by
  have hfacts : ((Layout.read teamDocument).toOption.map fun l =>
      (render ⟨.html, .builtin⟩ l ⟨100, 100⟩ teamContext).toOption.map fun x =>
        (x.1.tree.children x.1.root).map fun v => (x.1.tree.children v).map fun w =>
          (x.1.tree.children w).map fun x' => x.1.tree.property? x' "textContent") =
      some (some [[[some "Ada", some "Bo"], [some "open"]], [[], []]]) := by
    decide +kernel
  obtain ⟨l, hread, hfacts⟩ := exists_of_toOption_map hfacts
  obtain ⟨x, hrender, hseen⟩ := exists_of_toOption_map hfacts
  exact ⟨l, x.1, x.2, hread, hrender, hseen, render_mirrors hread hrender⟩

end Renderer

end Widgetry
