import Widgetry.Proofs.View.Renewal

/-!
# Refilling

What an update does to a slot. With the same key the views in it are brought up to date; with another
key the slot is cleared and filled again, and what is in it then has a history of one scene. From the
slots it goes up to every element that has a sketch.
-/

namespace Widgetry

open List

namespace Sketch

section Filling

variable {s : Scene} {t : ViewTree} {w : Nat} {f : Frame} {kids : List Sketch}

def fillingOps (s : Scene) (w : Nat) (f : Frame) (kids : List Sketch) : List ViewOp :=
  filling s w kids ++ (f.gap (kids.map view)).flatMap (Stroke.sets s)

theorem view_of_mem_fillingOps {op : ViewOp} (h : op ∈ fillingOps s w f kids) :
    op.view = w ∨ op.view ∈ kids.flatMap labels := by
  rcases mem_append.mp h with h | h
  · exact view_of_mem_filling (fun k _ => view_of_mem_ops k) h
  · exact .inr (views_subset_labels kids _ (view_of_mem_gap_sets h))

theorem created_fillingOps (hk : ∀ k ∈ kids, k.Shaped) :
    (fillingOps s w f kids).filterMap ViewOp.created? = kids.flatMap labels := by
  rw [fillingOps, filterMap_append, created_filling fun k hk' => created_ops k (hk k hk'),
    created_strokes, append_nil]

theorem timely_fillingOps (hk : ∀ k ∈ kids, k.Shaped) {n : Nat}
    (hn : Numbered n (kids.flatMap labels)) : ViewOp.Timely n (fillingOps s w f kids) := by
  refine ViewOp.timely_append.mpr
    ⟨timely_filling (fun k hk' => ⟨hk k hk', fun n => timely_ops k (hk k hk')⟩) hn, timely_gap ?_⟩
  rw [created_filling fun k hk' => created_ops k (hk k hk')]
  exact fun v hv => (hn.mem_iff.mp hv).2

theorem placed_fillingOps (hs : t.Sorted) (hw : w < t.size) (hk : ∀ k ∈ kids, k.Shaped)
    (hn : Numbered t.size (kids.flatMap labels)) :
    Placed (t.replay (fillingOps s w f kids)) kids where
  nodup := hn.nodup
  below v hv := by
    rw [ViewTree.size_replay, created_fillingOps hk]
    exact (hn.mem_iff.mp hv).2
  framed k hk' := by
    have hout : w ∉ kids.flatMap labels := fun h =>
      Nat.not_le_of_lt hw (hn.mem_iff.mp h).1
    have hframed := framedBy_filling (s := s) (fun k hk' look => framedBy_ops k (hk k hk')
      ((nodup_flatMap.mp hn.nodup).1 k hk') look) hout hn.nodup t.outline? k hk'
    refine hframed.congr fun v _ => ?_
    rw [ViewTree.outline?_replay (timely_fillingOps hk hn), fillingOps, foldl_append,
      foldl_outlined_strokes]
  sorted := hs.replay _

theorem outline?_fillingOps (hw : w < t.size) (hk : ∀ k ∈ kids, k.Shaped)
    (hn : Numbered t.size (kids.flatMap labels)) :
    (t.replay (fillingOps s w f kids)).outline? w =
      (t.outline? w).map fun y => (y.1, y.2 ++ kids.map view) := by
  rw [ViewTree.outline?_replay (timely_fillingOps hk hn), fillingOps, foldl_append,
    foldl_outlined_strokes]
  exact foldl_outlined_filling_parent (fun h => Nat.not_le_of_lt hw (hn.mem_iff.mp h).1) _

theorem property?_fillingOps (hs : t.Sorted) (hw : w < t.size) (hk : ∀ k ∈ kids, k.Shaped)
    (hn : Numbered t.size (kids.flatMap labels)) (name : String) :
    (t.replay (fillingOps s w f kids)).property? w name = t.property? w name := by
  have hout : w ∉ kids.flatMap labels := fun h => Nat.not_le_of_lt hw (hn.mem_iff.mp h).1
  rw [ViewTree.property?_replay hs (timely_fillingOps hk hn), fillingOps, foldl_append,
    foldl_written_filling_of_not_mem hout]
  refine ViewOp.foldl_written_of_ne (fun op hop he => hout ?_) name _
  exact he ▸ views_subset_labels kids _ (view_of_mem_gap_sets hop)

theorem property?_eq_none_of_numbered {labels : List Nat} (hn : Numbered t.size labels) :
    ∀ v ∈ labels, ∀ name, t.property? v name = none := by
  intro v hv name
  rw [ViewTree.property?, t.view?_eq_none_of_le (hn.mem_iff.mp hv).1]
  rfl

theorem property?_fillingOps_ground (hs : t.Sorted) (hk : ∀ k ∈ kids, k.Shaped)
    (hn : Numbered t.size (kids.flatMap labels)) {v : Nat} (hv : v ∈ kids.flatMap ground)
    (name : String) :
    (t.replay (fillingOps s w f kids)).property? v name =
      (scope f kids).foldl (Stroke.given s v name) none := by
  have hnested := not_mem_nested_of_mem_ground hn.nodup hv
  rw [ViewTree.property?_replay hs (timely_fillingOps hk hn), fillingOps, foldl_append,
    foldl_written_filling fun k hk' => foldl_written_ops k fun h =>
      hnested (mem_flatMap.mpr ⟨k, hk', h⟩),
    property?_eq_none_of_numbered hn v (ground_subset_labels hv),
    Stroke.foldl_written_flatMap_sets, ← foldl_append]
  rfl

theorem paintedBy_fillingOps (hs : t.Sorted) (hk : ∀ k ∈ kids, k.Shaped)
    (hn : Numbered t.size (kids.flatMap labels)) :
    ∀ k ∈ kids, k.PaintedBy s (t.replay (fillingOps s w f kids)).property? := by
  intro k hk'
  have hpainted := paintedBy_filling (s := s) (w := w) (fun k hk' read hread =>
    paintedBy_ops k ((nodup_flatMap.mp hn.nodup).1 k hk') read hread) hn.nodup t.property?
    (property?_eq_none_of_numbered hn) k hk'
  refine hpainted.congr fun v hv name => ?_
  rw [ViewTree.property?_replay hs (timely_fillingOps hk hn), fillingOps, foldl_append,
    foldl_written_gap_of_mem_nested hn.nodup (mem_flatMap.mpr ⟨k, hk', hv⟩)]

theorem grows_fillingOps (hs : t.Sorted) (hw : w < t.size) (hk : ∀ k ∈ kids, k.Shaped)
    (hn : Numbered t.size (kids.flatMap labels)) :
    t.Grows (t.replay (fillingOps s w f kids)) w (kids.map view) where
  size := by
    rw [ViewTree.size_replay]
    exact Nat.le_add_right _ _
  same v hv hne := by
    refine ViewTree.view?_replay_of_ne hv fun op hop he => ?_
    rcases view_of_mem_fillingOps hop with h | h
    · exact hne (he.symm.trans h)
    · exact Nat.not_le_of_lt hv (he ▸ (hn.mem_iff.mp h).1)
  outline := outline?_fillingOps hw hk hn
  property := property?_fillingOps hs hw hk hn
  new v hv := (hn.mem_iff.mp (views_subset_labels kids v hv)).1
  sorted hs := hs.replay _

end Filling

section Slot

variable {s' : Scene} {changed : List DataPath} {root : Element} {t t' : ViewTree} {o : Occurrence}
  {f : Frame} {site : SlotSite} {kind : SlotKind} {key key' : SlotKey} {v : Nat}
  {bs bs' : List BoundProperty} {kids kids' : List Sketch}

theorem placed_slot : Placed t [slot f site key bs kids] ↔
    Placed t kids ∧ (site.view < t.size ∧ site.view ∉ kids.flatMap labels) ∧
      t.outline? site.view = some (f.tag, kids.map view) := by
  constructor
  · rintro ⟨hnodup, hbelow, hframed, hsorted⟩
    rw [flatMap_singleton, labels] at hnodup hbelow
    obtain ⟨hview, hkids⟩ := nodup_cons.mp hnodup
    have hframe := hframed _ mem_cons_self
    rw [FramedBy] at hframe
    exact ⟨⟨hkids, fun u hu => hbelow u (mem_cons_of_mem _ hu), hframe.2, hsorted⟩,
      ⟨hbelow _ mem_cons_self, hview⟩, hframe.1⟩
  · rintro ⟨hkids, hview, houtline⟩
    refine ⟨?_, ?_, fun k hk => ?_, hkids.sorted⟩
    · rw [flatMap_singleton, labels]
      exact nodup_cons.mpr ⟨hview.2, hkids.nodup⟩
    · rw [flatMap_singleton, labels]
      intro u hu
      rcases mem_cons.mp hu with rfl | hu
      · exact hview.1
      · exact hkids.below u hu
    · rw [mem_singleton.mp hk, FramedBy]
      exact ⟨houtline, hkids.framed⟩

theorem renewal_slot (hd : (slot f site key' bs' kids').Drawn s'.stage o)
    (hp : Placed t' [slot f site key' bs' kids'])
    (hold : ∀ u ∈ kids'.flatMap labels, u ∈ kids.flatMap labels ∨ t.size ≤ u)
    (hcurrent : ∀ s, s.Agree s' changed → (slot f site key bs kids).Current s →
      (slot f site key' bs' kids').Current s')
    (hpainted : ∀ s h, s.Agree s' changed → (slot f site key bs kids).Current s →
      (slot f site key bs kids).PaintedSince (s :: h) t.property? →
      (slot f site key' bs' kids').PaintedSince (s' :: s :: h) t'.property?) :
    Renewal s' changed [o] t t' [slot f site key bs kids] [slot f site key' bs' kids'] where
  drawn := .cons hd .nil
  views := rfl
  ground := by simp only [flatMap_singleton, Sketch.ground]
  strokes := by simp only [flatMap_singleton, Sketch.strokes]
  placed := hp
  old u hu := by
    rw [flatMap_singleton, labels] at hu ⊢
    rcases mem_cons.mp hu with rfl | hu
    · exact .inl mem_cons_self
    · exact (hold u hu).imp_left (mem_cons_of_mem _)
  current s ha hc k hk := by
    rw [mem_singleton.mp hk]
    exact hcurrent s ha (hc _ mem_cons_self)
  painted s h ha hc hpaint k hk := by
    rw [mem_singleton.mp hk]
    exact hpainted s h ha (hc _ mem_cons_self) (hpaint _ mem_cons_self)

/-- A slot is refreshed when it, taken alone, comes to what its element asks. -/
theorem refreshes_slot (h : ∀ p : Progress, Placed p.tree [slot f site key bs kids] →
      ∃ a, ∃ p' : Progress,
        (Progress.refreshSlot s' changed root ⟨site, key, bs, kids.flatMap slots⟩).run p =
          ((a, Slot.refusal s' changed root ⟨site, key, bs, kids.flatMap slots⟩), p') ∧
        Steady p.tree p'.tree [slot f site key bs kids] ∧
        ((∀ u ∈ site.view :: kids.flatMap labels, p'.tree.view? u = p.tree.view? u) ↔
          Slot.Quiet s' changed root p.tree ⟨site, key, bs, kids.flatMap slots⟩) ∧
        (Slot.refusal s' changed root ⟨site, key, bs, kids.flatMap slots⟩ = none →
          ∃ k', [a] = k'.slots ∧
            Renewal s' changed [o] p.tree p'.tree [slot f site key bs kids] [k'])) :
    Refreshes s' changed root [o] [slot f site key bs kids] := by
  intro p hp
  obtain ⟨a, p', hrun, hsteady, hquiet, hrenewed⟩ := h p hp
  have hslots : [slot f site key bs kids].flatMap slots =
      [⟨site, key, bs, kids.flatMap slots⟩] := by
    rw [flatMap_singleton, slots]
  have hrefusal : Slot.refusals s' changed root [⟨site, key, bs, kids.flatMap slots⟩] =
      Slot.refusal s' changed root ⟨site, key, bs, kids.flatMap slots⟩ := by
    rw [Slot.refusals, Slot.refusals, Option.or_none]
  rw [hslots, hrefusal]
  refine ⟨[a], p', Progress.run_refreshSlots_singleton hrun, hsteady, ?_, ?_⟩
  · rw [hslots, Slot.AllQuiet, Slot.AllQuiet, flatMap_singleton, labels, hquiet]
    exact (and_iff_left fun _ => trivial).symm
  · rw [hslots, hrefusal]
    intro hr
    obtain ⟨k', ha, hn⟩ := hrenewed hr
    exact ⟨[k'], by rw [flatMap_singleton, ha], hn⟩

theorem refreshes_slot_kept (hframe : o.frame s'.stage = .ok f) (hslot : f.slot = some kind)
    (hbs : bs.map BoundProperty.stroke = (scope f kids).filter Stroke.isBound)
    (hkids : Forall₂ (Drawn s'.stage)
      ((o.site f kind v).selected key o.element.children) kids)
    (hnext : (o.site f kind v).next s' changed key = key)
    (h : Refreshes s' changed root ((o.site f kind v).selected key o.element.children) kids) :
    Refreshes s' changed root [o] [slot f (o.site f kind v) key bs kids] := by
  refine refreshes_slot fun p hp => ?_
  obtain ⟨hplaced, hview, houtline⟩ := placed_slot.mp hp
  obtain ⟨p₁, slots', p', hrun₁, hrun, hu⟩ := h.scope hkids
    (views_of_mem_properties (fun st => views_of_mem_scope) hbs) p hplaced
  have hsame : p'.tree.view? v = p.tree.view? v := hu.same _ hview.1 hview.2
  have hrefusal : Slot.refusal s' changed root ⟨o.site f kind v, key, bs, kids.flatMap slots⟩ =
      Slot.refusals s' changed root (kids.flatMap slots) := by
    rw [Slot.refusal, if_pos hnext]
  rw [hrefusal]
  refine ⟨_, p', Progress.run_refreshSlot_kept hnext hrun₁ hrun, ?_, ?_, fun hr => ?_⟩
  · refine ⟨hu.size, fun u hlt hmem => ?_, fun u hmem name => ?_, hu.sorted⟩
    · rw [flatMap_singleton, labels, mem_cons, not_or] at hmem
      exact hu.same u hlt hmem.2
    · rw [flatMap_singleton, ground, mem_singleton] at hmem
      rw [hmem]
      exact ViewTree.property?_congr hsame name
  · rw [Slot.Quiet, if_pos hnext, ← hu.quiet]
    simp only [mem_cons, forall_eq_or_imp]
    exact and_iff_right hsame
  · obtain ⟨kids', rfl, hn⟩ := hu.renewed hr
    have hscope : scope f kids' = scope f kids := by
      rw [scope, scope, hn.strokes, hn.views]
    refine ⟨slot f (o.site f kind v) key (bs.map (BoundProperty.renewed s' changed)) kids',
      by rw [slots], renewal_slot ?_ ?_ hn.old ?_ ?_⟩
    · refine .slot hframe hslot ?_ hn.drawn
      rw [hscope, ← hbs, map_map]
      rfl
    · refine placed_slot.mpr ⟨hn.placed, ⟨Nat.lt_of_lt_of_le hview.1 hu.size, fun hmem => ?_⟩, ?_⟩
      · exact (hn.old _ hmem).elim hview.2 (Nat.not_le_of_lt hview.1)
      · rw [hn.views, ← houtline]
        exact ViewTree.outline?_congr hsame
    · intro s ha hc
      rw [Current] at hc ⊢
      refine ⟨hnext.symm.trans (ha.next_eq hc.1), fun b hb => ?_, hn.current s ha hc.2.2⟩
      obtain ⟨b, hmem, rfl⟩ := mem_map.mp hb
      exact BoundProperty.next_eq ha (hc.2.1 b hmem)
    · intro s past ha hc hpaint
      rw [Current] at hc
      have hkey := hnext.symm.trans (ha.next_eq hc.1)
      rw [PaintedSince, SlotSite.during_cons hc.1] at hpaint
      rw [PaintedSince, SlotSite.during_cons hkey, SlotSite.during_cons hc.1, hscope, hn.ground]
      refine ⟨fun u hmem name => ?_, hn.painted s _ ha hc.2.2 hpaint.2⟩
      rw [hu.written u hmem, BoundProperty.foldl_rewritten_eq ha hbs hc.2.1, hpaint.1 u hmem]
      rfl

/-- A tree in which one view got other children, all of them new. -/
structure Refilled (t t' : ViewTree) (v : Nat) (tag : String) (done : List Nat) : Prop where
  size : t.size ≤ t'.size
  same : ∀ u < t.size, u ≠ v → t'.view? u = t.view? u
  outline : t'.outline? v = some (tag, done)
  property : ∀ name, t'.property? v name = t.property? v name
  new : ∀ d ∈ done, t.size ≤ d
  sorted : t'.Sorted

variable {done : List Nat}

theorem Refilled.steady (h : Refilled t t' site.view f.tag done) :
    Steady t t' [slot f site key bs kids] := by
  refine ⟨h.size, fun u hlt hmem => h.same u hlt fun he => hmem ?_, fun u hmem name => ?_, h.sorted⟩
  · rw [flatMap_singleton, labels, he]
    exact mem_cons_self
  · rw [flatMap_singleton, ground, mem_singleton] at hmem
    rw [hmem]
    exact h.property name

/-- Old children and new ones are the same only if there are none. -/
theorem Refilled.same_iff (h : Refilled t t' site.view f.tag done)
    (hp : Placed t [slot f site key bs kids]) :
    (∀ u ∈ site.view :: kids.flatMap labels, t'.view? u = t.view? u) ↔ kids = [] ∧ done = [] := by
  obtain ⟨hkids, hview, houtline⟩ := placed_slot.mp hp
  constructor
  · intro hsame
    have houtlines := ViewTree.outline?_congr (hsame _ mem_cons_self)
    rw [h.outline, houtline, Option.some.injEq, Prod.mk.injEq] at houtlines
    have hnil : kids.map view = [] := by
      refine eq_nil_iff_forall_not_mem.mpr fun u hu => ?_
      exact Nat.not_le_of_lt (hkids.below u (views_subset_labels kids u hu))
        (h.new u (houtlines.2 ▸ hu))
    exact ⟨map_eq_nil_iff.mp hnil, houtlines.2.trans hnil⟩
  · rintro ⟨rfl, rfl⟩ u hu
    rw [flatMap_nil, mem_singleton] at hu
    rw [hu, ViewTree.view?_eq_iff h.sorted hp.sorted, h.outline, houtline]
    exact ⟨rfl, h.property⟩

theorem Refilled.quiet_iff {e : Element} (h : Refilled t t' site.view f.tag done)
    (hp : Placed t [slot f site key bs kids]) (hnext : site.next s' changed key ≠ key)
    (he : root.descendant? site.element = some e)
    (hdone : done = [] ↔ ∀ o ∈ (site.selected (site.next s' changed key) e.children).head?,
      (o.refusal s').isSome) :
    (∀ u ∈ site.view :: kids.flatMap labels, t'.view? u = t.view? u) ↔
      Slot.Quiet s' changed root t ⟨site, key, bs, kids.flatMap slots⟩ := by
  have hchildren : t.children site.view = kids.map view := by
    have houtline := (placed_slot.mp hp).2.2
    obtain ⟨x, hx, heq⟩ := Option.map_eq_some_iff.mp houtline
    rw [ViewTree.children, hx]
    exact congrArg Prod.snd heq
  rw [h.same_iff hp, Slot.Quiet, if_neg hnext, hchildren, map_eq_nil_iff, he, hdone]
  simp

theorem refilled_clear {c : ViewTree} (hp : Placed t [slot f site key bs kids])
    (h : (t.apply (.clear site.view)).Grows c site.view done) :
    Refilled t c site.view f.tag done := by
  obtain ⟨-, hview, houtline⟩ := placed_slot.mp hp
  have hsize : (t.apply (.clear site.view)).size = t.size := ViewTree.size_apply t _
  refine ⟨hsize ▸ h.size, fun u hlt hne => ?_, ?_, fun name => ?_, hsize ▸ h.new,
    h.sorted (hp.sorted.apply _)⟩
  · rw [h.same u (hsize.symm ▸ hlt) hne]
    exact ViewTree.view?_apply_of_ne t hlt (Ne.symm hne)
  · rw [h.outline, ViewTree.outline?_apply t (by simp [ViewOp.created?]), houtline]
    simp [ViewOp.outlined]
  · rw [h.property, ViewTree.property?_apply t hp.sorted (show ViewOp.Timely t.size [.clear site.view] from trivial)]
    rfl

theorem refreshes_slot_rebuilt (hframe : o.frame s'.stage = .ok f) (hslot : f.slot = some kind)
    (ho : o.Stands root) (hnext : (o.site f kind v).next s' changed key ≠ key) :
    Refreshes s' changed root [o] [slot f (o.site f kind v) key bs kids] := by
  refine refreshes_slot fun p hp => ?_
  have he : root.descendant? (o.site f kind v).element = some o.element := ho
  generalize hnew : (o.site f kind v).next s' changed key = key' at *
  have hrefusal : Slot.refusal s' changed root ⟨o.site f kind v, key, bs, kids.flatMap slots⟩ =
      ((o.site f kind v).selected key' o.element.children).findSome? (Occurrence.refusal s') := by
    rw [Slot.refusal, hnew, if_neg hnext, he]
  have hrun : ∀ q, (Progress.refreshSlot s' changed root
      ⟨o.site f kind v, key, bs, kids.flatMap slots⟩).run q =
        (Progress.rebuild s' (o.site f kind v) key' o.element).run q := by
    subst hnew
    exact Progress.run_refreshSlot_rebuilt hnext he
  have hsize : (p.tree.apply (.clear v)).size = p.tree.size := ViewTree.size_apply p.tree _
  have hw : v < (p.tree.apply (.clear v)).size := hsize ▸ (placed_slot.mp hp).2.1.1
  have hfill := @Build.fill_run f s' (o.site f kind v) key' o.element.children
    (Occurrence.between_of_slot hframe hslot) (fun p _ => Build.draws s' p)
    ⟨p.tree.apply (.clear v), .clear v :: p.log, .empty⟩ hw
  rw [hrefusal, hrun]
  cases hr : ((o.site f kind v).selected key' o.element.children).findSome?
      (Occurrence.refusal s') with
  | some e =>
    simp only [hr] at hfill
    obtain ⟨c, done, hrun', hgrows, hdone⟩ := hfill
    obtain ⟨a, p', hrebuild, htree⟩ := Progress.run_rebuild_error hrun'
    have hrefilled : Refilled p.tree p'.tree (o.site f kind v).view f.tag done :=
      refilled_clear hp (htree ▸ hgrows)
    refine ⟨a, p', hrebuild, hrefilled.steady, hrefilled.quiet_iff hp (hnew ▸ hnext) he ?_, by simp⟩
    rw [hnew, hdone]
    cases hsel : (o.site f kind v).selected key' o.element.children with
    | nil => simp [hsel] at hr
    | cons first rest => simp
  | none =>
    simp only [hr] at hfill
    obtain ⟨kids', hdrawn, hcurrent, hnumbered, hemits⟩ := hfill
    obtain ⟨p', hrebuild, htree⟩ := Progress.run_rebuild_ok hemits
    replace htree : p'.tree = (p.tree.apply (.clear v)).replay (fillingOps s' v f kids') := by
      rw [htree, Canvas.tree_add]
      rfl
    have hshaped : ∀ k ∈ kids', k.Shaped := by
      intro k hk
      obtain ⟨_, _, hd⟩ := exists_mem_of_forall₂ hdrawn hk
      exact hd.shaped
    have hsorted : (p.tree.apply (.clear v)).Sorted := hp.sorted.apply _
    have hrefilled : Refilled p.tree p'.tree (o.site f kind v).view f.tag (kids'.map view) :=
      refilled_clear hp (htree ▸ grows_fillingOps hsorted hw hshaped hnumbered)
    refine ⟨_, p', hrebuild, hrefilled.steady, hrefilled.quiet_iff hp (hnew ▸ hnext) he ?_, fun _ =>
      ⟨slot f (o.site f kind v) key' ((scope f kids').filterMap (Stroke.bound? s')) kids', ?_,
        renewal_slot ?_ ?_ ?_ ?_ ?_⟩⟩
    · rw [hnew]
      cases hsel : (o.site f kind v).selected key' o.element.children with
      | nil =>
        rw [hsel, forall₂_nil_left_iff] at hdrawn
        simp [hdrawn]
      | cons first rest =>
        rw [hsel, List.findSome?_cons] at hr
        rw [hsel, forall₂_cons_left_iff] at hdrawn
        obtain ⟨k, ks, -, -, rfl⟩ := hdrawn
        cases hfirst : first.refusal s' with
        | none => simp [hfirst]
        | some e => simp [hfirst] at hr
    · simp [slots, Canvas.add, Sketch.fillingTrace, Trace.strokes, scope, Retained.empty]
    · exact .slot hframe hslot (Stroke.map_stroke_bound s' _) hdrawn
    · refine placed_slot.mpr ⟨htree ▸ placed_fillingOps hsorted hw hshaped hnumbered, ⟨?_, ?_⟩,
        hrefilled.outline⟩
      · exact Nat.lt_of_lt_of_le (hsize ▸ hw) hrefilled.size
      · exact fun hmem => Nat.not_le_of_lt hw (hnumbered.mem_iff.mp hmem).1
    · exact fun u hu => .inr (hsize ▸ (hnumbered.mem_iff.mp hu).1)
    · intro s ha hc
      rw [Current] at hc ⊢
      exact ⟨hnew.symm.trans (ha.next_eq hc.1), fun b hb => Stroke.last_of_mem_bound hb, hcurrent⟩
    · intro s past ha hc _
      rw [Current] at hc
      have hkey : key' = s'.key kind := hnew.symm.trans (ha.next_eq hc.1)
      have hduring : (o.site f kind v).during key' (s' :: s :: past) = [s'] := by
        rw [SlotSite.during_cons hkey, SlotSite.during, takeWhile_cons_of_neg]
        simpa [← hc.1] using Ne.symm hnext
      rw [PaintedSince, hduring, htree]
      refine ⟨fun u hu name => property?_fillingOps_ground hsorted hshaped hnumbered hu name, ?_⟩
      exact fun k hk => (paintedSince_singleton (hcurrent k hk)).mpr
        (paintedBy_fillingOps hsorted hshaped hnumbered k hk)

end Slot

variable {s' : Scene} {changed : List DataPath} {root : Element}

/-- The slots of elements are updated, or refused, as the elements ask. -/
theorem refreshes {os : List Occurrence} {ks : List Sketch}
    (hks : Forall₂ (Drawn s'.stage) os ks)
    (h : ∀ k ∈ ks, ∀ o ∈ os, k.Drawn s'.stage o → Refreshes s' changed root [o] [k]) :
    Refreshes s' changed root os ks := by
  induction hks with
  | nil => exact refreshes_nil
  | @cons o k os ks hk hks ih =>
    have hfirst : Refreshes s' changed root [o] [k] :=
      h k mem_cons_self o mem_cons_self hk
    refine hfirst.append hks (ih fun k hk o ho => ?_)
    exact h k (mem_cons_of_mem _ hk) o (mem_cons_of_mem _ ho)

theorem Drawn.refreshes {o : Occurrence} {k : Sketch} (hk : k.Drawn s'.stage o) (ho : o.Stands root) :
    Refreshes s' changed root [o] [k] := by
  induction k using inductionOn generalizing o with
  | plain v inner f kids ih =>
    cases hk with
    | plain hframe hslot hinner hkids =>
      have hstands : ∀ p ∈ o.members f, p.Stands root := fun p hp => Occurrence.stands_members ho hp
      exact refreshes_plain hframe hslot hinner
        (Sketch.refreshes hkids fun k hk p hp hd => ih k hk hd (hstands p hp))
  | slot f site key properties kids ih =>
    cases hk with
    | @slot _ v _ kind _ _ _ hframe hslot hproperties hkids =>
      by_cases hnext : (o.site f kind v).next s' changed key = key
      · have hstands : ∀ p ∈ (o.site f kind v).selected key o.element.children, p.Stands root :=
          fun p hp => Occurrence.stands_selected ho hp
        exact refreshes_slot_kept hframe hslot hproperties hkids hnext
          (Sketch.refreshes hkids fun k hk p hp hd => ih k hk hd (hstands p hp))
      · exact refreshes_slot_rebuilt hframe hslot ho hnext

end Sketch

end Widgetry
