import Mathlib.Data.List.Nodup
import Widgetry.Proofs.View.Failure
import Widgetry.Proofs.View.Orderly

/-!
# View trees are forests

Every view of a rendering has one parent at most, with a smaller number. So a walk down from the root
ends without a bound on its depth, and comes by each view once that can be reached.
-/

namespace Widgetry

open List

mutual

/-- The views that a slot and all below it hold. -/
def Slot.views : Slot → List Nat
  | ⟨site, _, properties, slots⟩ =>
      site.view :: properties.flatMap BoundProperty.views ++ viewsAll slots

def Slot.viewsAll : List Slot → List Nat
  | [] => []
  | s :: ss => views s ++ viewsAll ss

end

def Retained.views (r : Retained) : List Nat :=
  r.properties.flatMap BoundProperty.views ++ Slot.viewsAll r.slots

section Retained

variable {t : ViewTree} {p : BoundProperty} {v : Nat}

theorem BoundProperty.Suits.lt_size (h : p.Suits t) (hv : v ∈ p.views) : v < t.size := by
  obtain ⟨name, hname⟩ := exists_mem_of_ne_nil _ h.1
  obtain ⟨tag, htag, -⟩ := h.2 v hv name hname
  exact ViewTree.lt_size_of_tag? htag

theorem lt_size_of_mem_properties {ps : List BoundProperty} (h : ∀ p ∈ ps, p.Suits t)
    (hv : v ∈ ps.flatMap BoundProperty.views) : v < t.size := by
  obtain ⟨p, hp, hv⟩ := mem_flatMap.mp hv
  exact (h p hp).lt_size hv

theorem Slot.mem_viewsAll {ss : List Slot} : v ∈ viewsAll ss ↔ ∃ s ∈ ss, v ∈ views s := by
  induction ss with
  | nil => simp [viewsAll]
  | cons s ss ih => simp only [viewsAll, mem_append, ih, mem_cons, exists_eq_or_imp]

theorem Slot.Suits.lt_size {s : Slot} (h : s.Suits t) : ∀ v ∈ s.views, v < t.size := by
  induction h with
  | mk hsite hproperties _ ih =>
    intro v hv
    rw [views, mem_append, mem_cons, mem_viewsAll] at hv
    rcases hv with (rfl | hv) | ⟨s, hs, hv⟩
    · exact hsite.holds.lt_size
    · exact lt_size_of_mem_properties hproperties hv
    · exact ih s hs v hv

theorem Retained.Suits.lt_size {r : Retained} (h : r.Suits t) (hv : v ∈ r.views) : v < t.size := by
  rcases mem_append.mp hv with hv | hv
  · exact lt_size_of_mem_properties h.properties hv
  · obtain ⟨s, hs, hv⟩ := Slot.mem_viewsAll.mp hv
    exact (h.slots s hs).lt_size v hv

end Retained

namespace ViewTree

/-- Views in document order with all below them, however deep that is. -/
inductive Walk (t : ViewTree) : List Nat → List Nat → Prop
  | nil : Walk t [] []
  | cons {v : Nat} {vs below after : List Nat} (hbelow : Walk t (t.children v) below)
      (hafter : Walk t vs after) : Walk t (v :: vs) (v :: below ++ after)

variable {t : ViewTree} {v w a b : Nat} {vs ws : List Nat}

theorem exists_walk_of_forall (h : ∀ v ∈ vs, ∃ ws, t.Walk (t.children v) ws) : ∃ ws, t.Walk vs ws := by
  induction vs with
  | nil => exact ⟨[], .nil⟩
  | cons v vs ih =>
    obtain ⟨⟨below, hbelow⟩, hvs⟩ := forall_mem_cons.mp h
    obtain ⟨after, hafter⟩ := ih hvs
    exact ⟨_, .cons hbelow hafter⟩

theorem Orderly.exists_walk (ht : t.Orderly) (vs : List Nat) : ∃ ws, t.Walk vs ws := by
  refine exists_walk_of_forall fun v hv => ?_
  clear hv
  -- children have greater numbers, of which there are fewer
  induction hn : t.size - v using Nat.strongRecOn generalizing v with
  | ind n ih =>
    refine exists_walk_of_forall fun c hc => ih (t.size - c) ?_ c rfl
    have hlt := ht.lt_of_mem_children hc
    omega

theorem reaches_iff : t.Reaches v w ↔ w = v ∨ ∃ c ∈ t.children v, t.Reaches c w := by
  constructor
  · intro h
    induction h with
    | refl => exact .inl rfl
    | child _ hw ih =>
      rcases ih with rfl | ⟨c, hc, hu⟩
      · exact .inr ⟨_, hw, .refl⟩
      · exact .inr ⟨c, hc, hu.child hw⟩
  · rintro (rfl | ⟨c, hc, hw⟩)
    · exact .refl
    · exact Reaches.trans (.child .refl hc) hw

theorem Walk.mem_iff (h : t.Walk vs ws) : w ∈ ws ↔ ∃ v ∈ vs, t.Reaches v w := by
  induction h with
  | nil => simp
  | cons _ _ ihbelow ihafter =>
    simp only [mem_append, mem_cons, ihbelow, ihafter, ← reaches_iff, exists_eq_or_imp]

theorem Orderly.le_of_reaches (ht : t.Orderly) (h : t.Reaches v w) : v ≤ w := by
  induction h with
  | refl => exact Nat.le_refl v
  | child _ hw ih => exact Nat.le_trans ih (Nat.le_of_lt (ht.lt_of_mem_children hw).1)

/-- Of two views above a third one, one is above the other. -/
theorem Single.reaches_or_reaches (ht : t.Single) (ha : t.Reaches a w) (hb : t.Reaches b w) :
    t.Reaches a b ∨ t.Reaches b a := by
  induction ha with
  | refl => exact .inr hb
  | child ha hw ih =>
    cases hb with
    | refl => exact .inl (ha.child hw)
    | child hb hw' =>
      obtain rfl := ht.parent _ _ _ hw hw'
      exact ih hb

/-- Neither of two views is below the other. -/
def Apart (t : ViewTree) (a b : Nat) : Prop := ¬ t.Reaches a b ∧ ¬ t.Reaches b a

theorem Orderly.not_reaches_of_siblings (ht : t.Orderly) (ha : a ∈ t.children v)
    (hb : b ∈ t.children v) (hne : a ≠ b) : ¬ t.Reaches a b := by
  intro h
  cases h with
  | refl => exact hne rfl
  | child h hb' =>
    obtain rfl := ht.single.parent _ _ _ hb' hb
    exact Nat.not_lt.mpr (ht.le_of_reaches h) (ht.lt_of_mem_children ha).1

theorem Orderly.pairwise_children (ht : t.Orderly) (v : Nat) : (t.children v).Pairwise t.Apart :=
  (ht.single.nodup v).pairwise_of_forall_ne fun _ ha _ hb hne =>
    ⟨ht.not_reaches_of_siblings ha hb hne, ht.not_reaches_of_siblings hb ha hne.symm⟩

theorem Orderly.nodup_of_walk (ht : t.Orderly) (h : t.Walk vs ws) (hvs : vs.Pairwise t.Apart) :
    ws.Nodup := by
  induction h with
  | nil => exact .nil
  | @cons v vs below after hbelow hafter ihbelow ihafter =>
    obtain ⟨hv, hvs⟩ := pairwise_cons.mp hvs
    refine nodup_append.mpr ⟨nodup_cons.mpr ⟨fun hmem => ?_,
      ihbelow (ht.pairwise_children v)⟩, ihafter hvs, fun x hx y hy hxy => ?_⟩
    · obtain ⟨c, hc, hreach⟩ := hbelow.mem_iff.mp hmem
      exact Nat.not_lt.mpr (ht.le_of_reaches hreach) (ht.lt_of_mem_children hc).1
    · subst hxy
      have hx : t.Reaches v x := by rwa [mem_cons, hbelow.mem_iff, ← reaches_iff] at hx
      obtain ⟨w, hw, hy⟩ := hafter.mem_iff.mp hy
      exact (ht.single.reaches_or_reaches hx hy).elim (hv w hw).1 (hv w hw).2

/-- A search that is bounded by the number of views finds the first view of the walk. -/
theorem Orderly.findSome?_findWithin (ht : t.Orderly) (name value : String) (h : t.Walk vs ws)
    {fuel : Nat} (hvs : ∀ v ∈ vs, v < t.size ∧ t.size ≤ v + fuel) :
    vs.findSome? (t.findWithin name value fuel) =
      ws.find? fun v => t.property? v name = some value := by
  induction h generalizing fuel with
  | nil => rfl
  | @cons v vs below after hbelow hafter ihbelow ihafter =>
    obtain ⟨hv, hvs⟩ := forall_mem_cons.mp hvs
    cases fuel with
    | zero => omega
    | succ fuel =>
      have hfuel : ∀ c ∈ t.children v, c < t.size ∧ t.size ≤ c + fuel := by
        intro c hc
        have hlt := ht.lt_of_mem_children hc
        omega
      have hchildren := ihbelow hfuel
      rw [List.findSome?_cons, ihafter hvs, cons_append, List.find?_cons, List.find?_append,
        findWithin, hchildren]
      by_cases hp : t.property? v name = some value
      · simp [hp]
      · simp only [hp, if_false, decide_false]
        cases below.find? _ <;> rfl

end ViewTree

mutual

/-- The tags of a node in document order. -/
def Markup.Node.tags : Node → List String
  | .text _ => []
  | .element tag _ content => tag :: tagsAll content

def Markup.Node.tagsAll : List Node → List String
  | [] => []
  | n :: ns => tags n ++ tagsAll ns

end

namespace Markup

theorem Node.tagsAll_solid (content : List Node) :
    tagsAll content = (solid content).flatMap tags := by
  induction content with
  | nil => rfl
  | cons n content ih =>
    rw [tagsAll, ih, solid, solid, filter_cons]
    cases n with
    | text s => split <;> simp [tags]
    | element tag attributes content => rfl

/-- Nodes that show views have the tags of the walk down from these. -/
theorem tags_of_shows {m : Markup} {t : ViewTree} {vs ws : List Nat} {nodes : List Node}
    (h : t.Walk vs ws) (hnodes : Forall₂ (Shows m t) vs nodes) :
    (nodes.flatMap Node.tags).map some = ws.map t.tag? := by
  induction h generalizing nodes with
  | nil =>
    cases hnodes
    rfl
  | @cons v vs below after hbelow hafter ihbelow ihafter =>
    obtain _ | ⟨hnode, hnodes⟩ := hnodes
    rw [flatMap_cons, map_append, map_append, ihafter hnodes, map_cons]
    congr 1
    cases hnode with
    | @leaf _ x hx hchildren =>
      rw [ViewTree.children_of_view? hx, hchildren] at ihbelow
      rw [← ihbelow .nil, ViewTree.tag?, hx]
      cases (m.text? x.properties).filter (· ≠ "") <;> rfl
    | @parent _ x content hx hchildren htext hcontent =>
      have hbelow := ihbelow (ViewTree.children_of_view? hx ▸ hcontent)
      rw [Node.tags, Node.tagsAll_solid, map_cons, hbelow, ViewTree.tag?, hx]
      rfl

end Markup

/-- In every rendering that updates lead to, whether they succeed or fail, the views form a forest, and
searches and markup come by each view below the root once, in document order. -/
theorem Renderer.LeadsTo.forest {r : Renderer} {l : Layout} {size : Size} {R : Rendering}
    (h : r.LeadsTo l size R) :
    (∀ v ∈ R.root :: R.retained.views, v < R.tree.size) ∧
    (∀ v, ∀ c ∈ R.tree.children v, v < c ∧ c < R.tree.size) ∧
    ((List.range R.tree.size).flatMap R.tree.children).Nodup ∧
    (∀ v, R.root ∉ R.tree.children v) ∧
    (∀ v x, R.tree.view? v = some x → x.tag ∈ Markup.voidTags →
      x.children = [] ∧ x.properties.get? "textContent" = none) ∧
    ∃ vs, R.tree.Walk [R.root] vs ∧ vs.Nodup ∧ (∀ v, v ∈ vs ↔ R.tree.Reaches R.root v) ∧
      (∀ name value, R.tree.find? R.root name value =
        vs.find? fun v => R.tree.property? v name = some value) ∧
      ∀ m : Markup, ∃ node, m.read (R.tree.markup m R.root) = some [node, .text "\n"] ∧
        Markup.Shows m R.tree R.root node ∧ node.tags.map some = vs.map R.tree.tag? := by
  obtain ⟨htree, hretained, hroot, hloose⟩ := h.orderly
  obtain ⟨vs, hvs⟩ := htree.exists_walk [R.root]
  refine ⟨forall_mem_cons.mpr ⟨hroot, fun v hv => hretained.lt_size hv⟩,
    fun v c hc => htree.lt_of_mem_children hc, ?_, hloose, fun v x hx hvoid => ?_, vs, hvs,
    htree.nodup_of_walk hvs (pairwise_singleton _ _), fun v => ?_, fun name value => ?_,
    fun m => ?_⟩
  · refine nodup_flatMap.mpr ⟨fun v _ => htree.single.nodup v, ?_⟩
    refine nodup_range.imp fun hne c hc hc' => ?_
    exact hne (htree.single.parent _ _ c hc hc')
  · have htidy := (htree.views v x hx).tidy
    exact ⟨htidy.void hvoid, htidy.texts (.inr hvoid)⟩
  · rw [hvs.mem_iff]
    simp
  · have hbound : ∀ v ∈ [R.root], v < R.tree.size ∧ R.tree.size ≤ v + R.tree.size := by
      simpa using hroot
    have hfind := htree.findSome?_findWithin name value hvs hbound
    rw [← hfind, ViewTree.find?, List.findSome?_cons]
    cases R.tree.findWithin name value R.tree.size R.root <;> rfl
  · obtain ⟨node, hread, hshows⟩ := Markup.exists_read_markup htree.tidy m hroot
    refine ⟨node, hread, hshows, ?_⟩
    simpa using Markup.tags_of_shows hvs (.cons hshows .nil)

/-- An update that is refused half way leaves a forest behind. -/
theorem Renderer.forest_alertLayout : ∃ R,
    LeadsTo ⟨.html, .builtin⟩ alertLayout ⟨100, 100⟩ R ∧
    (update ⟨.html, .builtin⟩ R (alertContext "storm" true)).result.toOption.isNone = true ∧
    ∀ v, ∀ c ∈ (update ⟨.html, .builtin⟩ R (alertContext "storm" true)).rendering.tree.children v,
      v < c := by
  have hfails : (render ⟨.html, .builtin⟩ alertLayout ⟨100, 100⟩
      (alertContext "calm" false)).toOption.map (fun p =>
        (update ⟨.html, .builtin⟩ p.1 (alertContext "storm" true)).result.toOption.isNone) =
      some true := by
    decide +kernel
  obtain ⟨p, hrender, hnone⟩ := exists_of_toOption_map hfails
  have hleads := LeadsTo.render hrender
  have hforest := (hleads.update (alertContext "storm" true)).forest
  exact ⟨p.1, hleads, hnone, fun v c hc => (hforest.2.1 v c hc).1⟩

end Widgetry
