import Widgetry.Proofs.View.History

/-!
# Renewal

Bringing the slots of sketches up to date. The views of the sketches are the only old ones that
change, and those outside slots keep their properties. When no slot is refused, what is retained
afterwards belongs to sketches drawn for the same elements, and their views hold what the history
leaves. An update that is refused leaves the views as they were exactly when it was quiet.
-/

namespace Widgetry

open List

/-- Updating the properties leaves each view as it is. -/
def BoundProperty.Still (s : Scene) (changed : List DataPath) (t : ViewTree)
    (bs : List BoundProperty) : Prop :=
  ∀ v name, bs.foldl (rewritten s changed v name) (t.property? v name) = t.property? v name

namespace Slot

mutual

/-- An update of a slot leaves its views as they are: the properties of a slot that keeps its key are
still, and a slot that gets another key has no child before and is refused at the first one, or has
none after it. -/
def Quiet (s : Scene) (changed : List DataPath) (root : Element) (t : ViewTree) : Slot → Prop
  | ⟨site, key, properties, slots⟩ =>
      if site.next s changed key = key then
        BoundProperty.Still s changed t properties ∧ AllQuiet s changed root t slots
      else t.children site.view = [] ∧ ∀ e ∈ root.descendant? site.element,
        ∀ o ∈ (site.selected (site.next s changed key) e.children).head?, (o.refusal s).isSome

/-- An update of slots leaves their views as they are, as far as the first slot refused. -/
def AllQuiet (s : Scene) (changed : List DataPath) (root : Element) (t : ViewTree) :
    List Slot → Prop
  | [] => True
  | slot :: slots => slot.Quiet s changed root t ∧
      (slot.refusal s changed root = none → AllQuiet s changed root t slots)

end

theorem allQuiet_append (s : Scene) (changed : List DataPath) (root : Element) (t : ViewTree)
    (as bs : List Slot) :
    AllQuiet s changed root t (as ++ bs) ↔ AllQuiet s changed root t as ∧
      (refusals s changed root as = none → AllQuiet s changed root t bs) := by
  induction as with
  | nil => simp [AllQuiet, refusals]
  | cons a as ih =>
    rw [cons_append, AllQuiet, AllQuiet, ih, refusals, Option.or_eq_none_iff]
    tauto

end Slot

namespace Sketch

/-- Sketches stand in a tree: no view is used twice, and each is there with its tag and children. -/
structure Placed (t : ViewTree) (ks : List Sketch) : Prop where
  nodup : (ks.flatMap labels).Nodup
  below : ∀ v ∈ ks.flatMap labels, v < t.size
  framed : ∀ k ∈ ks, k.FramedBy t.outline?
  sorted : t.Sorted

/-- Of the views there were, only those of the sketches changed, and the ones outside slots kept
their properties. -/
structure Steady (t t' : ViewTree) (ks : List Sketch) : Prop where
  size : t.size ≤ t'.size
  same : ∀ v < t.size, v ∉ ks.flatMap labels → t'.view? v = t.view? v
  ground : ∀ v ∈ ks.flatMap ground, ∀ name, t'.property? v name = t.property? v name
  sorted : t'.Sorted

/-- Sketches for the same elements in the scene of an update. -/
structure Renewal (s' : Scene) (changed : List DataPath) (os : List Occurrence)
    (t t' : ViewTree) (ks ks' : List Sketch) : Prop where
  drawn : Forall₂ (Drawn s'.stage) os ks'
  views : ks'.map view = ks.map view
  ground : ks'.flatMap Sketch.ground = ks.flatMap Sketch.ground
  strokes : ks'.flatMap strokes = ks.flatMap strokes
  placed : Placed t' ks'
  old : ∀ v ∈ ks'.flatMap labels, v ∈ ks.flatMap labels ∨ t.size ≤ v
  current : ∀ s, s.Agree s' changed → (∀ k ∈ ks, k.Current s) → ∀ k ∈ ks', k.Current s'
  painted : ∀ s h, s.Agree s' changed → (∀ k ∈ ks, k.Current s) →
    (∀ k ∈ ks, k.PaintedSince (s :: h) t.property?) →
    ∀ k ∈ ks', k.PaintedSince (s' :: s :: h) t'.property?

/-- What an update of the slots of sketches comes to. -/
structure Updates (s' : Scene) (changed : List DataPath) (root : Element) (os : List Occurrence)
    (t t' : ViewTree) (ks : List Sketch) (slots : List Slot) : Prop where
  steady : Steady t t' ks
  quiet : (∀ v ∈ ks.flatMap labels, t'.view? v = t.view? v) ↔
    Slot.AllQuiet s' changed root t (ks.flatMap Sketch.slots)
  renewed : Slot.refusals s' changed root (ks.flatMap Sketch.slots) = none →
    ∃ ks', slots = ks'.flatMap Sketch.slots ∧ Renewal s' changed os t t' ks ks'

/-- The slots of sketches are updated, or refused, as their elements ask. -/
def Refreshes (s' : Scene) (changed : List DataPath) (root : Element) (os : List Occurrence)
    (ks : List Sketch) : Prop :=
  ∀ p : Progress, Placed p.tree ks → ∃ slots, ∃ p' : Progress,
    (Progress.refreshSlots s' changed root (ks.flatMap Sketch.slots)).run p =
      ((slots, Slot.refusals s' changed root (ks.flatMap Sketch.slots)), p') ∧
    Updates s' changed root os p.tree p'.tree ks slots

end Sketch

variable {t t' : ViewTree} {v : Nat} {ks : List Sketch} {os : List Occurrence}

theorem ViewTree.property?_congr (h : t'.view? v = t.view? v) (name : String) :
    t'.property? v name = t.property? v name := by
  rw [property?, property?, h]

theorem ViewTree.outline?_congr (h : t'.view? v = t.view? v) : t'.outline? v = t.outline? v := by
  rw [outline?, outline?, h]

section Quiet

variable {s : Scene} {changed : List DataPath} {root : Element} {t t' : ViewTree}
  {bs : List BoundProperty} {g : Stage}

theorem BoundProperty.Still.congr (hs : Still s changed t bs)
    (h : ∀ b ∈ bs, ∀ v ∈ b.views, t'.view? v = t.view? v) : Still s changed t' bs := by
  intro v name
  by_cases hv : ∃ b ∈ bs, v ∈ b.views
  · obtain ⟨b, hb, hv⟩ := hv
    rw [ViewTree.property?_congr (h b hb v hv)]
    exact hs v name
  · exact foldl_rewritten_of_not_mem (fun b hb hv' => hv ⟨b, hb, hv'⟩) name _

theorem Slot.AllQuiet.flatMap (hq : AllQuiet s changed root t (ks.flatMap Sketch.slots))
    (h : ∀ k ∈ ks, AllQuiet s changed root t k.slots → AllQuiet s changed root t' k.slots) :
    AllQuiet s changed root t' (ks.flatMap Sketch.slots) := by
  induction ks with
  | nil => trivial
  | cons k ks ih =>
    rw [flatMap_cons, allQuiet_append] at hq ⊢
    exact ⟨h k mem_cons_self hq.1, fun hr =>
      ih (hq.2 hr) fun k hk => h k (mem_cons_of_mem _ hk)⟩

theorem Sketch.views_of_mem_properties {ss : List Stroke}
    (hss : ∀ st ∈ ss, ∀ v ∈ st.views, v ∈ ks.flatMap ground)
    (hbs : bs.map BoundProperty.stroke = ss.filter Stroke.isBound) :
    ∀ b ∈ bs, ∀ v ∈ b.views, v ∈ ks.flatMap ground := by
  intro b hb
  have hst : b.stroke ∈ ss := (mem_filter.mp (hbs ▸ mem_map_of_mem hb)).1
  exact hss b.stroke hst

theorem Sketch.ground_subset_labels (h : v ∈ ks.flatMap ground) : v ∈ ks.flatMap labels := by
  obtain ⟨k, hk, hv⟩ := mem_flatMap.mp h
  exact mem_flatMap.mpr ⟨k, hk, mem_labels.mpr (.inl hv)⟩

theorem Sketch.allQuiet_congr {k : Sketch} {o : Occurrence} (hk : k.Drawn g o)
    (h : ∀ v ∈ k.labels, t'.view? v = t.view? v) (hq : Slot.AllQuiet s changed root t k.slots) :
    Slot.AllQuiet s changed root t' k.slots := by
  induction k using inductionOn generalizing o with
  | plain v inner f kids ih =>
    cases hk with
    | plain hframe hslot hinner hkids =>
      rw [slots] at hq ⊢
      rw [labels] at h
      refine hq.flatMap fun k hk hq => ?_
      obtain ⟨p, -, hd⟩ := exists_mem_of_forall₂ hkids hk
      exact ih k hk hd (fun u hu => h u (mem_cons_of_mem _
        (mem_append_right _ (mem_flatMap.mpr ⟨k, hk, hu⟩)))) hq
  | slot f site key properties kids ih =>
    cases hk with
    | @slot _ v _ kind _ _ _ hframe hslot hproperties hkids =>
      rw [labels] at h
      rw [slots, Slot.AllQuiet, Slot.Quiet] at hq ⊢
      refine ⟨?_, fun _ => trivial⟩
      have hq := hq.1
      split at hq
      · rename_i hnext
        rw [if_pos hnext]
        refine ⟨hq.1.congr fun b hb v hv => ?_, hq.2.flatMap fun k hk hq => ?_⟩
        · exact h v (mem_cons_of_mem _ (ground_subset_labels
            (views_of_mem_properties (fun st => views_of_mem_scope) hproperties b hb v hv)))
        · obtain ⟨p, -, hd⟩ := exists_mem_of_forall₂ hkids hk
          exact ih k hk hd (fun u hu => h u (mem_cons_of_mem _
            (mem_flatMap.mpr ⟨k, hk, hu⟩))) hq
      · rename_i hnext
        rw [if_neg hnext, ViewTree.children, h _ mem_cons_self]
        exact hq

/-- Whether an update is quiet is seen at the views of the sketches. -/
theorem Sketch.allQuiet_flatMap_congr (hks : Forall₂ (Drawn g) os ks)
    (h : ∀ v ∈ ks.flatMap labels, t'.view? v = t.view? v) :
    Slot.AllQuiet s changed root t' (ks.flatMap slots) ↔
      Slot.AllQuiet s changed root t (ks.flatMap slots) := by
  have hk : ∀ k ∈ ks, ∃ o, k.Drawn g o := fun k hk =>
    let ⟨o, _, hd⟩ := exists_mem_of_forall₂ hks hk
    ⟨o, hd⟩
  constructor
  · refine fun hq => hq.flatMap fun k hk' => ?_
    obtain ⟨o, hd⟩ := hk k hk'
    exact allQuiet_congr hd fun v hv => (h v (mem_flatMap.mpr ⟨k, hk', hv⟩)).symm
  · refine fun hq => hq.flatMap fun k hk' => ?_
    obtain ⟨o, hd⟩ := hk k hk'
    exact allQuiet_congr hd fun v hv => h v (mem_flatMap.mpr ⟨k, hk', hv⟩)

end Quiet

namespace Sketch

theorem Placed.congr (h : Placed t ks) (hsize : t.size ≤ t'.size) (hsorted : t'.Sorted)
    (hl : ∀ v ∈ ks.flatMap labels, t'.outline? v = t.outline? v) : Placed t' ks where
  nodup := h.nodup
  below v hv := Nat.lt_of_lt_of_le (h.below v hv) hsize
  framed k hk := (h.framed k hk).congr fun v hv => hl v (mem_flatMap.mpr ⟨k, hk, hv⟩)
  sorted := hsorted

section Append

variable {s' : Scene} {changed : List DataPath} {root : Element} {t t₁ t₂ : ViewTree}
  {os₁ os₂ : List Occurrence} {ks₁ ks₂ ks₁' ks₂' : List Sketch}

theorem placed_append : Placed t (ks₁ ++ ks₂) ↔ Placed t ks₁ ∧ Placed t ks₂ ∧
    ∀ v ∈ ks₁.flatMap labels, v ∉ ks₂.flatMap labels := by
  constructor
  · rintro ⟨hnodup, hbelow, hframed, hsorted⟩
    rw [flatMap_append] at hnodup hbelow
    obtain ⟨h₁, h₂, hne⟩ := nodup_append.mp hnodup
    exact ⟨⟨h₁, fun v hv => hbelow v (mem_append_left _ hv),
        fun k hk => hframed k (mem_append_left _ hk), hsorted⟩,
      ⟨h₂, fun v hv => hbelow v (mem_append_right _ hv),
        fun k hk => hframed k (mem_append_right _ hk), hsorted⟩,
      fun v hv hv' => hne v hv v hv' rfl⟩
  · rintro ⟨h₁, h₂, hne⟩
    refine ⟨?_, ?_, ?_, h₁.sorted⟩
    · rw [flatMap_append]
      exact nodup_append.mpr ⟨h₁.nodup, h₂.nodup, fun v hv w hw he => hne v hv (he ▸ hw)⟩
    · intro v hv
      rw [flatMap_append] at hv
      exact (mem_append.mp hv).elim (h₁.below v) (h₂.below v)
    · exact fun k hk => (mem_append.mp hk).elim (h₁.framed k) (h₂.framed k)

/-- The first sketches of a list change nothing of the others. -/
theorem Steady.placed_right (hp : Placed t (ks₁ ++ ks₂)) (h : Steady t t₁ ks₁) : Placed t₁ ks₂ := by
  obtain ⟨-, h₂, hne⟩ := placed_append.mp hp
  refine h₂.congr h.size h.sorted fun v hv => ViewTree.outline?_congr ?_
  exact h.same v (h₂.below v hv) fun hv' => hne v hv' hv

theorem Steady.left (h : Steady t t₁ ks₁) (hp : Placed t (ks₁ ++ ks₂)) :
    Steady t t₁ (ks₁ ++ ks₂) := by
  obtain ⟨-, h₂, hne⟩ := placed_append.mp hp
  refine ⟨h.size, fun v hv hv' => ?_, fun v hv name => ?_, h.sorted⟩
  · rw [flatMap_append, mem_append, not_or] at hv'
    exact h.same v hv hv'.1
  · rw [flatMap_append] at hv
    rcases mem_append.mp hv with hv | hv
    · exact h.ground v hv name
    · have hlabel := ground_subset_labels hv
      exact ViewTree.property?_congr (h.same v (h₂.below v hlabel) fun hv' => hne v hv' hlabel) name

theorem Steady.append (h₁ : Steady t t₁ ks₁) (h₂ : Steady t₁ t₂ ks₂) (hp : Placed t (ks₁ ++ ks₂)) :
    Steady t t₂ (ks₁ ++ ks₂) := by
  obtain ⟨hp₁, hp₂, hne⟩ := placed_append.mp hp
  have hleft := h₁.left hp
  refine ⟨Nat.le_trans h₁.size h₂.size, fun v hv hv' => ?_, fun v hv name => ?_, h₂.sorted⟩
  · have hv'' := hv'
    rw [flatMap_append, mem_append, not_or] at hv''
    rw [h₂.same v (Nat.lt_of_lt_of_le hv h₁.size) hv''.2, hleft.same v hv hv']
  · rw [← hleft.ground v hv name]
    rw [flatMap_append] at hv
    rcases mem_append.mp hv with hv | hv
    · have hlabel := ground_subset_labels hv
      exact ViewTree.property?_congr (h₂.same v (Nat.lt_of_lt_of_le (hp₁.below v hlabel) h₁.size)
        (hne v hlabel)) name
    · exact h₂.ground v hv name

/-- The views of renewed sketches are not among those of others that were there. -/
theorem Renewal.not_mem_right (h : Renewal s' changed os₁ t t₁ ks₁ ks₁')
    (hp : Placed t (ks₁ ++ ks₂)) : ∀ v ∈ ks₁'.flatMap labels, v ∉ ks₂.flatMap labels := by
  obtain ⟨-, hp₂, hne⟩ := placed_append.mp hp
  intro v hv hv'
  rcases h.old v hv with hold | hnew
  · exact hne v hold hv'
  · exact Nat.not_lt_of_le hnew (hp₂.below v hv')

theorem Renewal.append (h₁ : Renewal s' changed os₁ t t₁ ks₁ ks₁') (hs₁ : Steady t t₁ ks₁)
    (h₂ : Renewal s' changed os₂ t₁ t₂ ks₂ ks₂') (hs₂ : Steady t₁ t₂ ks₂)
    (hp : Placed t (ks₁ ++ ks₂)) :
    Renewal s' changed (os₁ ++ os₂) t t₂ (ks₁ ++ ks₂) (ks₁' ++ ks₂') := by
  have hne := h₁.not_mem_right hp
  obtain ⟨hp₁, hp₂, hne'⟩ := placed_append.mp hp
  have hsame₁ : ∀ v ∈ ks₁'.flatMap labels, t₂.view? v = t₁.view? v := fun v hv =>
    hs₂.same v (h₁.placed.below v hv) (hne v hv)
  have hsame₂ : ∀ v ∈ ks₂.flatMap labels, t₁.view? v = t.view? v := fun v hv =>
    hs₁.same v (hp₂.below v hv) fun hv' => hne' v hv' hv
  constructor
  · exact rel_append h₁.drawn h₂.drawn
  · rw [map_append, map_append, h₁.views, h₂.views]
  · rw [flatMap_append, flatMap_append, h₁.ground, h₂.ground]
  · rw [flatMap_append, flatMap_append, h₁.strokes, h₂.strokes]
  · refine placed_append.mpr ⟨?_, h₂.placed, fun v hv hv' => ?_⟩
    · exact h₁.placed.congr hs₂.size hs₂.sorted fun v hv => ViewTree.outline?_congr (hsame₁ v hv)
    · rcases h₂.old v hv' with hold | hnew
      · exact hne v hv hold
      · exact Nat.not_lt_of_le hnew (h₁.placed.below v hv)
  · intro v hv
    rw [flatMap_append] at hv ⊢
    rcases mem_append.mp hv with hv | hv
    · exact (h₁.old v hv).imp_left (mem_append_left _)
    · rcases h₂.old v hv with hold | hnew
      · exact .inl (mem_append_right _ hold)
      · exact .inr (Nat.le_trans hs₁.size hnew)
  · intro s ha hc k hk
    rcases mem_append.mp hk with hk | hk
    · exact h₁.current s ha (fun k hk => hc k (mem_append_left _ hk)) k hk
    · exact h₂.current s ha (fun k hk => hc k (mem_append_right _ hk)) k hk
  · intro s h ha hc hpaint k hk
    rcases mem_append.mp hk with hk | hk
    · refine (h₁.painted s h ha (fun k hk => hc k (mem_append_left _ hk))
        (fun k hk => hpaint k (mem_append_left _ hk)) k hk).congr fun v hv name => ?_
      exact ViewTree.property?_congr (hsame₁ v
        (mem_flatMap.mpr ⟨k, hk, mem_labels.mpr (.inr hv)⟩)) name
    · refine h₂.painted s h ha (fun k hk => hc k (mem_append_right _ hk))
        (fun k hk => (hpaint k (mem_append_right _ hk)).congr fun v hv name => ?_) k hk
      exact ViewTree.property?_congr (hsame₂ v
        (mem_flatMap.mpr ⟨k, hk, mem_labels.mpr (.inr hv)⟩)) name

theorem refreshes_nil : Refreshes s' changed root [] [] := by
  intro p hp
  refine ⟨[], p, rfl, ⟨⟨Nat.le_refl _, fun _ _ _ => rfl, by simp, hp.sorted⟩, ?_, fun _ => ⟨[], rfl, ?_⟩⟩⟩
  · simp [Slot.AllQuiet]
  · exact ⟨.nil, rfl, rfl, rfl, hp, by simp, by simp, by simp⟩

theorem Refreshes.append (hd : Forall₂ (Drawn s'.stage) os₂ ks₂)
    (h₁ : Refreshes s' changed root os₁ ks₁) (h₂ : Refreshes s' changed root os₂ ks₂) :
    Refreshes s' changed root (os₁ ++ os₂) (ks₁ ++ ks₂) := by
  intro p hp
  obtain ⟨hp₁, hp₂, hne⟩ := placed_append.mp hp
  obtain ⟨slots₁, p₁, hrun₁, hu₁⟩ := h₁ p hp₁
  have hsame₂ : ∀ v ∈ ks₂.flatMap labels, p₁.tree.view? v = p.tree.view? v := fun v hv =>
    hu₁.steady.same v (hp₂.below v hv) fun hv' => hne v hv' hv
  rw [flatMap_append, Slot.refusals_append]
  cases hr : Slot.refusals s' changed root (ks₁.flatMap slots) with
  | some e =>
    rw [hr] at hrun₁
    refine ⟨_, p₁, Progress.run_refreshSlots_append_of_error hrun₁ _, hu₁.steady.left hp, ?_, ?_⟩
    · rw [flatMap_append, flatMap_append, Slot.allQuiet_append, hr, ← hu₁.quiet]
      simp only [mem_append, or_imp, forall_and, reduceCtorEq, false_imp_iff, and_true]
      exact and_iff_left hsame₂
    · rw [flatMap_append, Slot.refusals_append, hr]
      simp
  | none =>
    rw [hr] at hrun₁
    obtain ⟨slots₂, p₂, hrun₂, hu₂⟩ := h₂ p₁ (hu₁.steady.placed_right hp)
    refine ⟨_, p₂, Progress.run_refreshSlots_append hrun₁ hrun₂, hu₁.steady.append hu₂.steady hp,
      ?_, ?_⟩
    · have hsame₁ : ∀ v ∈ ks₁.flatMap labels, p₂.tree.view? v = p₁.tree.view? v := fun v hv =>
        hu₂.steady.same v (Nat.lt_of_lt_of_le (hp₁.below v hv) hu₁.steady.size) (hne v hv)
      rw [flatMap_append, flatMap_append, Slot.allQuiet_append, hr, ← hu₁.quiet,
        ← allQuiet_flatMap_congr hd hsame₂, ← hu₂.quiet]
      simp only [mem_append, or_imp, forall_and, true_imp_iff]
      refine and_congr (forall₂_congr fun v hv => ?_) (forall₂_congr fun v hv => ?_)
      · rw [hsame₁ v hv]
      · rw [hsame₂ v hv]
    · intro hr'
      rw [flatMap_append, Slot.refusals_append, hr, Option.none_or] at hr'
      obtain ⟨ks₁', rfl, hn₁⟩ := hu₁.renewed hr
      obtain ⟨ks₂', rfl, hn₂⟩ := hu₂.renewed hr'
      exact ⟨ks₁' ++ ks₂', (flatMap_append ..).symm, hn₁.append hu₁.steady hn₂ hu₂.steady hp⟩

end Append

section Plain

variable {s' : Scene} {changed : List DataPath} {root : Element} {t t' : ViewTree} {o : Occurrence}
  {v : Nat} {inner : Option Nat} {f : Frame} {kids kids' : List Sketch}

theorem placed_plain : Placed t [plain v inner f kids] ↔
    Placed t kids ∧ (v :: inner.toList).Nodup ∧
      (∀ u ∈ v :: inner.toList, u < t.size ∧ u ∉ kids.flatMap labels) ∧
      t.outline? v = some (f.tag, inner.elim (kids.map view) fun w => [w]) ∧
      ∀ w ∈ inner, t.outline? w = f.content.map fun c => (c.1, kids.map view) := by
  constructor
  · rintro ⟨hnodup, hbelow, hframed, hsorted⟩
    rw [flatMap_singleton, labels, ← cons_append] at hnodup hbelow
    obtain ⟨hown, hkids, hne⟩ := nodup_append.mp hnodup
    have hframe := hframed _ mem_cons_self
    rw [FramedBy] at hframe
    exact ⟨⟨hkids, fun u hu => hbelow u (mem_append_right _ hu), hframe.2.2, hsorted⟩, hown,
      fun u hu => ⟨hbelow u (mem_append_left _ hu), fun hu' => hne u hu u hu' rfl⟩,
      hframe.1, hframe.2.1⟩
  · rintro ⟨hkids, hown, hapart, hv, hinner⟩
    refine ⟨?_, ?_, fun k hk => ?_, hkids.sorted⟩
    · rw [flatMap_singleton, labels, ← cons_append]
      exact nodup_append.mpr ⟨hown, hkids.nodup, fun u hu w hw he => (hapart u hu).2 (he ▸ hw)⟩
    · rw [flatMap_singleton, labels, ← cons_append]
      intro u hu
      exact (mem_append.mp hu).elim (fun hu => (hapart u hu).1) (hkids.below u)
    · rw [mem_singleton.mp hk, FramedBy]
      exact ⟨hv, hinner, hkids.framed⟩

theorem Renewal.plain (h : Renewal s' changed os t t' kids kids')
    (hd : (plain v inner f kids').Drawn s'.stage o) (hs : Steady t t' kids)
    (hp : Placed t [plain v inner f kids]) :
    Renewal s' changed [o] t t' [plain v inner f kids] [plain v inner f kids'] := by
  obtain ⟨-, hown, hapart, hv, hinner⟩ := placed_plain.mp hp
  have hsame : ∀ u ∈ v :: inner.toList, t'.outline? u = t.outline? u := fun u hu =>
    ViewTree.outline?_congr (hs.same u (hapart u hu).1 (hapart u hu).2)
  constructor
  · exact .cons hd .nil
  · rfl
  · simp only [flatMap_singleton, Sketch.ground, h.ground]
  · simp only [flatMap_singleton, Sketch.strokes, h.strokes, h.views]
  · refine placed_plain.mpr ⟨h.placed, hown, fun u hu => ⟨?_, fun hu' => ?_⟩, ?_, fun w hw => ?_⟩
    · exact Nat.lt_of_lt_of_le (hapart u hu).1 hs.size
    · exact (h.old u hu').elim (hapart u hu).2 (Nat.not_le_of_lt (hapart u hu).1)
    · rw [hsame v mem_cons_self, hv, h.views]
    · rw [hsame w (mem_cons_of_mem _ (Option.mem_toList.mpr hw)), hinner w hw, h.views]
  · intro u hu
    rw [flatMap_singleton, labels, ← cons_append] at hu ⊢
    rcases mem_append.mp hu with hu | hu
    · exact .inl (mem_append_left _ hu)
    · exact (h.old u hu).imp_left (mem_append_right _)
  · intro s ha hc k hk
    rw [mem_singleton.mp hk, Current]
    have hcurrent := hc _ mem_cons_self
    rw [Current] at hcurrent
    exact h.current s ha hcurrent
  · intro s past ha hc hpaint k hk
    rw [mem_singleton.mp hk, PaintedSince]
    have hcurrent := hc _ mem_cons_self
    have hpainted := hpaint _ mem_cons_self
    rw [Current] at hcurrent
    rw [PaintedSince] at hpainted
    exact h.painted s past ha hcurrent hpainted

theorem refreshes_plain (hframe : o.frame s'.stage = .ok f) (hslot : f.slot = none)
    (hinner : inner.isSome = f.content.isSome) (h : Refreshes s' changed root (o.members f) kids) :
    Refreshes s' changed root [o] [plain v inner f kids] := by
  intro p hp
  obtain ⟨hkids, -, hapart, -, -⟩ := placed_plain.mp hp
  obtain ⟨slots', p', hrun, hu⟩ := h p hkids
  have hslots : [plain v inner f kids].flatMap slots = kids.flatMap slots := by
    rw [flatMap_singleton, slots]
  have hsame : ∀ u ∈ v :: inner.toList, p'.tree.view? u = p.tree.view? u := fun u hu' =>
    hu.steady.same u (hapart u hu').1 (hapart u hu').2
  rw [hslots]
  refine ⟨slots', p', hrun, ⟨hu.steady.size, fun u hlt hmem => ?_, fun u hmem name => ?_,
    hu.steady.sorted⟩, ?_, fun hr => ?_⟩
  · rw [flatMap_singleton, labels, ← cons_append, mem_append, not_or] at hmem
    exact hu.steady.same u hlt hmem.2
  · rw [flatMap_singleton, ground, ← cons_append] at hmem
    rcases mem_append.mp hmem with hmem | hmem
    · exact ViewTree.property?_congr (hsame u hmem) name
    · exact hu.steady.ground u hmem name
  · rw [hslots, ← hu.quiet, flatMap_singleton, labels, ← cons_append]
    simp only [mem_append, or_imp, forall_and]
    exact and_iff_right hsame
  · rw [hslots] at hr
    obtain ⟨kids', rfl, hn⟩ := hu.renewed hr
    refine ⟨[plain v inner f kids'], ?_, hn.plain (.plain hframe hslot hinner hn.drawn) hu.steady hp⟩
    rw [flatMap_singleton, slots]

end Plain

section Scope

variable {s' : Scene} {changed : List DataPath} {root : Element} {t t' : ViewTree}
  {os : List Occurrence} {ks ks' : List Sketch} {bs : List BoundProperty}

/-- What an update of the properties and slots of sketches comes to. -/
structure ScopeUpdates (s' : Scene) (changed : List DataPath) (root : Element)
    (os : List Occurrence) (t t' : ViewTree) (ks : List Sketch) (bs : List BoundProperty)
    (slots : List Slot) : Prop where
  size : t.size ≤ t'.size
  same : ∀ v < t.size, v ∉ ks.flatMap labels → t'.view? v = t.view? v
  written : ∀ v ∈ ks.flatMap ground, ∀ name, t'.property? v name =
    bs.foldl (BoundProperty.rewritten s' changed v name) (t.property? v name)
  sorted : t'.Sorted
  quiet : (∀ v ∈ ks.flatMap labels, t'.view? v = t.view? v) ↔
    BoundProperty.Still s' changed t bs ∧
      Slot.AllQuiet s' changed root t (ks.flatMap Sketch.slots)
  renewed : Slot.refusals s' changed root (ks.flatMap Sketch.slots) = none →
    ∃ ks', slots = ks'.flatMap Sketch.slots ∧ Renewal s' changed os t t' ks ks'

theorem still_iff (ht : t.Sorted) (h : ViewTree.Rewritten s' changed bs t t') :
    BoundProperty.Still s' changed t bs ↔ ∀ v, t'.view? v = t.view? v := by
  simp only [ViewTree.view?_eq_iff h.sorted ht, h.outline, h.property, true_and]
  rfl

/-- Writing the properties of views outside slots leaves those inside as they are. -/
theorem property?_of_mem_nested (h : ViewTree.Rewritten s' changed bs t t')
    (hbs : ∀ b ∈ bs, ∀ v ∈ b.views, v ∈ ks.flatMap ground) (hks : (ks.flatMap labels).Nodup)
    (hv : v ∈ ks.flatMap nested) (name : String) : t'.property? v name = t.property? v name := by
  rw [h.property]
  refine BoundProperty.foldl_rewritten_of_not_mem (fun b hb hv' => ?_) name _
  exact not_mem_nested_of_mem_ground hks (hbs b hb v hv') hv

theorem Refreshes.scope (h : Refreshes s' changed root os ks)
    (hd : Forall₂ (Drawn s'.stage) os ks)
    (hbs : ∀ b ∈ bs, ∀ v ∈ b.views, v ∈ ks.flatMap ground) (p : Progress) (hp : Placed p.tree ks) :
    ∃ p₁ slots, ∃ p' : Progress, (bs.mapM (Progress.refreshProperty s' changed)).run p =
        (bs.map (BoundProperty.renewed s' changed), p₁) ∧
      (Progress.refreshSlots s' changed root (ks.flatMap Sketch.slots)).run p₁ =
        ((slots, Slot.refusals s' changed root (ks.flatMap Sketch.slots)), p') ∧
      ScopeUpdates s' changed root os p.tree p'.tree ks bs slots := by
  obtain ⟨p₁, hrun₁, htree⟩ : ∃ p₁, (bs.mapM (Progress.refreshProperty s' changed)).run p =
      (bs.map (BoundProperty.renewed s' changed), p₁) ∧
        p₁.tree = p.tree.replay (bs.flatMap (BoundProperty.rewrites s' changed)) :=
    ⟨_, Progress.does_refreshProperties s' changed bs p, rfl⟩
  have hw : ViewTree.Rewritten s' changed bs p.tree p₁.tree := htree ▸
    ViewTree.rewritten_replay hp.sorted fun b hb v hv =>
      hp.below v (ground_subset_labels (hbs b hb v hv))
  have hp₁ : Placed p₁.tree ks :=
    hp.congr (Nat.le_of_eq hw.size.symm) hw.sorted fun v _ => hw.outline v
  obtain ⟨slots, p', hrun, hu⟩ := h p₁ hp₁
  have hwritten : ∀ v ∈ ks.flatMap ground, ∀ name, p'.tree.property? v name =
      bs.foldl (BoundProperty.rewritten s' changed v name) (p.tree.property? v name) :=
    fun v hv name => (hu.steady.ground v hv name).trans (hw.property v name)
  refine ⟨p₁, slots, p', hrun₁, hrun, hw.size ▸ hu.steady.size, fun v hv hv' => ?_, hwritten,
    hu.steady.sorted, ⟨fun hsame => ?_, fun ⟨hstill, hquiet⟩ v hv => ?_⟩, fun hr => ?_⟩
  · rw [hu.steady.same v (hw.size ▸ hv) hv']
    refine (ViewTree.view?_eq_iff hw.sorted hp.sorted).mpr ⟨hw.outline v, fun name => ?_⟩
    rw [hw.property]
    exact BoundProperty.foldl_rewritten_of_not_mem
      (fun b hb hv'' => hv' (ground_subset_labels (hbs b hb v hv''))) name _
  · have hstill : BoundProperty.Still s' changed p.tree bs := by
      intro v name
      by_cases hv : v ∈ ks.flatMap ground
      · rw [← hwritten v hv name, ViewTree.property?_congr (hsame v (ground_subset_labels hv))]
      · exact BoundProperty.foldl_rewritten_of_not_mem (fun b hb hv' => hv (hbs b hb v hv')) name _
    have hsame₁ := (still_iff hp.sorted hw).mp hstill
    refine ⟨hstill, ?_⟩
    rw [← allQuiet_flatMap_congr hd fun v _ => hsame₁ v, ← hu.quiet]
    exact fun v hv => (hsame v hv).trans (hsame₁ v).symm
  · have hsame₁ := (still_iff hp.sorted hw).mp hstill
    rw [← allQuiet_flatMap_congr hd fun v _ => hsame₁ v, ← hu.quiet] at hquiet
    exact (hquiet v hv).trans (hsame₁ v)
  · obtain ⟨ks', rfl, hn⟩ := hu.renewed hr
    refine ⟨ks', rfl, { hn with old := hw.size ▸ hn.old, painted := fun s past ha hc hpaint => ?_ }⟩
    refine hn.painted s past ha hc fun k hk => (hpaint k hk).congr fun v hv name => ?_
    exact property?_of_mem_nested hw hbs hp.nodup (mem_flatMap.mpr ⟨k, hk, hv⟩) name

end Scope

end Sketch

end Widgetry
