import Widgetry.Proofs.View.Freshness

/-!
# Writes of an update

An update that builds nothing anew writes the properties whose native form changed, each one once on
every view and under every name that it has, and nothing else. It evaluates the properties that a
change may reach.
-/

namespace Widgetry

open List

/-- The properties of a slot and below it that can change, in the order of an update. -/
def Slot.bound : Slot → List BoundProperty
  | ⟨_, _, properties, slots⟩ => properties ++ slots.flatMap bound

/-- The properties that can change, in the order of an update. -/
def Retained.bound (a : Retained) : List BoundProperty := a.properties ++ a.slots.flatMap Slot.bound

namespace Slot

mutual

theorem length_bound (a : Slot) : a.bound.length = a.boundCount := by
  obtain ⟨site, key, properties, slots⟩ := a
  rw [bound, boundCount, length_append, length_flatMap_bound slots]

theorem length_flatMap_bound (as : List Slot) : (as.flatMap bound).length = boundCounts as := by
  cases as with
  | nil => rfl
  | cons a as =>
    rw [flatMap_cons, length_append, boundCounts, length_bound a, length_flatMap_bound as]

end

end Slot

theorem Retained.length_bound (a : Retained) : a.bound.length = a.boundCount := by
  rw [bound, length_append, Slot.length_flatMap_bound, boundCount]

variable {site : SlotSite} {key : SlotKey} {g : Stage} {o : Occurrence} {f : Frame} {k : Sketch}
  {b : BoundProperty} {s : Scene} {changed : List DataPath}

namespace Progress

variable {s : Scene} {changed : List DataPath} {root : Element}

def rewritten (s : Scene) (changed : List DataPath) (p : Progress) (bs : List BoundProperty) :
    Progress :=
  p.advanced (bs.flatMap (BoundProperty.rewrites s changed))
    (bs.countP fun b => touches b.formula.deps changed)

theorem rewritten_append (p : Progress) (as bs : List BoundProperty) :
    p.rewritten s changed (as ++ bs) = (p.rewritten s changed as).rewritten s changed bs := by
  rw [rewritten, rewritten, rewritten, advanced_advanced, flatMap_append, countP_append]

variable {p p' : Progress}

theorem rebuilt_lt_of_rebuild {e : Element} {a : Slot}
    (h : (rebuild s site key e).run p = ((a, none), p')) : p.rebuilt < p'.rebuilt := by
  have hclear : (perform (.clear site.view)).run p = ((), ⟨p.tree.apply (.clear site.view),
      .clear site.view :: p.log, p.evaluated, p.rebuilt⟩) := rfl
  rcases hfill : (Build.fill s site key e.children).run
    ⟨p.tree.apply (.clear site.view), .clear site.view :: p.log, .empty⟩ with ⟨result, c⟩
  rw [rebuild, run_bind_eq hclear] at h
  simp only [StateT.run_bind, StateT.run_get, pure_bind, hfill] at h
  cases result with
  | ok u =>
    cases h
    exact Nat.lt_succ_self _
  | error e => cases h

mutual

/-- A slot that is not refused is built anew, or one below it is, or its properties are brought up to
date and nothing else happens. -/
theorem rebuilt_or_rewritten {a a' : Slot} {p p' : Progress}
    (h : (refreshSlot s changed root a).run p = ((a', none), p')) :
    p.rebuilt < p'.rebuilt ∨ p' = p.rewritten s changed a.bound := by
  obtain ⟨site, key, properties, slots⟩ := a
  by_cases hnext : site.next s changed key = key
  · have hproperties := does_refreshProperties s changed properties p
    rcases hslots : (refreshSlots s changed root slots).run
      (p.rewritten s changed properties) with ⟨⟨slots', error⟩, p₂⟩
    rw [run_refreshSlot_kept hnext hproperties hslots] at h
    cases h
    rw [Slot.bound, rewritten_append]
    exact all_rebuilt_or_rewritten hslots
  · cases he : root.descendant? site.element with
    | none =>
      unfold SlotSite.next at hnext
      rw [refreshSlot, if_neg hnext, he] at h
      cases h
    | some e =>
      rw [run_refreshSlot_rebuilt hnext he] at h
      exact .inl (rebuilt_lt_of_rebuild h)

theorem all_rebuilt_or_rewritten {as as' : List Slot} {p p' : Progress}
    (h : (refreshSlots s changed root as).run p = ((as', none), p')) :
    p.rebuilt < p'.rebuilt ∨ p' = p.rewritten s changed (as.flatMap Slot.bound) := by
  cases as with
  | nil =>
    rw [refreshSlots] at h
    cases h
    exact .inr rfl
  | cons a as =>
    rcases ha : (refreshSlot s changed root a).run p with ⟨⟨b, error⟩, p₁⟩
    cases error with
    | some e =>
      rw [run_refreshSlots_cons_of_error ha] at h
      cases h
    | none =>
      rcases has : (refreshSlots s changed root as).run p₁ with ⟨⟨bs, error⟩, p₂⟩
      rw [run_refreshSlots_cons ha has] at h
      cases h
      rw [flatMap_cons, rewritten_append]
      rcases rebuilt_or_rewritten ha with hfirst | rfl
      · rcases all_rebuilt_or_rewritten has with hrest | rfl
        · exact .inl (Nat.lt_trans hfirst hrest)
        · exact .inl hfirst
      · exact all_rebuilt_or_rewritten has

end

theorem refresh_rebuilt_or_rewritten {a a' : Retained}
    (h : (refresh s changed root a).run p = ((a', none), p')) :
    p.rebuilt < p'.rebuilt ∨ p' = p.rewritten s changed a.bound := by
  have hproperties := does_refreshProperties s changed a.properties p
  rcases hslots : (refreshSlots s changed root a.slots).run
    (p.rewritten s changed a.properties) with ⟨⟨slots, error⟩, p₂⟩
  have hrun : (refresh s changed root a).run p =
      ((⟨a.properties.map (BoundProperty.renewed s changed), slots⟩, error), p₂) := by
    rw [refresh]
    exact (run_bind_eq hproperties _).trans (run_bind_eq hslots _)
  rw [hrun] at h
  cases h
  rw [Retained.bound, rewritten_append]
  exact all_rebuilt_or_rewritten hslots

end Progress

/-! ### Distinct targets -/

/-- A stroke that names no view and no property twice. -/
def Stroke.Distinct (st : Stroke) : Prop := st.views.Nodup ∧ st.mark.names.Nodup

theorem Mark.nodup_names {m : Mark} (h : m.names.length = 1) : m.names.Nodup := by
  obtain ⟨name, hname⟩ := length_eq_one_iff.mp h
  rw [hname]
  exact nodup_singleton name

theorem ViewTarget.nodup_outputs (target : ViewTarget) (p : Property) (kind : Kind) :
    (target.outputs p kind).1.Nodup := by
  unfold outputs
  split <;> decide

namespace Stage

variable (g : Stage)

theorem nodup_names_aligned (flow : Flow) (axis : Axis) (value : String) :
    ∀ m ∈ (g.aligned flow axis value).1, m.2.names.Nodup := by
  intro m hm
  unfold aligned at hm
  split at hm
  · simp at hm
  · rw [mem_singleton.mp hm]
    exact nodup_singleton _

theorem nodup_names_modified (item : List Segment) (kind : Kind) (flow : Flow) (m : Modifier Term) :
    ∀ x ∈ (g.modified item kind flow m).1, x.2.names.Nodup := by
  intro x hx
  unfold modified at hx
  split at hx
  · rw [mem_singleton.mp hx]
    exact nodup_singleton _
  · split at hx
    · exact g.nodup_names_aligned _ _ _ x hx
    · exact g.nodup_names_aligned _ _ _ x hx
    · rw [mem_singleton.mp hx]
      exact nodup_singleton _
    · obtain ⟨name, -, rfl⟩ := mem_map.mp hx
      exact nodup_singleton _
  · split at hx
    · simp at hx
    · rw [mem_singleton.mp hx]
      exact g.target.nodup_outputs _ _

theorem length_names_gapAround (flow : Flow) (spacing : Option Formula) :
    ∀ m ∈ g.gapAround flow spacing, m.names.length = 1 := by
  intro m hm
  unfold gapAround at hm
  split at hm
  · obtain ⟨f, -, rfl⟩ := Option.map_eq_some_iff.mp hm
    rfl
  · cases hm

theorem length_names_gapBetween (flow : Flow) (spacing : Option Formula) :
    ∀ m ∈ g.gapBetween flow spacing, m.names.length = 1 := by
  intro m hm
  unfold gapBetween at hm
  split at hm
  · cases hm
  · obtain ⟨f, -, rfl⟩ := Option.map_eq_some_iff.mp hm
    rfl

end Stage

namespace Occurrence

/-- A mark that an element has by its kind writes one property. -/
theorem yields_own (g : Stage) (o : Occurrence) (mods : List (Modifier Term))
    (spacing : Option Formula) :
    Yields (fun own => ∀ m ∈ own, m.names.length = 1) (o.own g mods spacing) := by
  unfold own
  split
  · refine (yields_true _).bind fun text _ m hm => ?_
    obtain ⟨f, -, rfl⟩ := Option.map_eq_some_iff.mp (Option.mem_toList.mp hm)
    rfl
  · refine (yields_true _).bind fun src _ => (yields_true _).bind fun size _ m hm => ?_
    rcases mem_append.mp hm with hm | hm
    · obtain ⟨f, -, rfl⟩ := Option.map_eq_some_iff.mp (Option.mem_toList.mp hm)
      rfl
    · cases size with
      | none => simp at hm
      | some f =>
        have hextents : m = g.extent .horizontal f ∨ m = g.extent .vertical f := by simpa using hm
        rcases hextents with rfl | rfl <;> rfl
  · refine (yields_true _).bind fun size _ m hm => ?_
    cases size with
    | none =>
      obtain ⟨p, -, rfl⟩ := mem_map.mp hm
      rfl
    | some f =>
      rcases mem_append.mp hm with hm | hm
      all_goals
        split at hm
        · simp at hm
        · rw [mem_singleton.mp hm]
          rfl
  · refine (yields_true _).bind fun thickness _ m hm => ?_
    rcases mem_cons.mp hm with rfl | hm
    · rfl
    rcases mem_cons.mp hm with rfl | hm
    · rfl
    split at hm
    · simp at hm
    · split at hm
      · obtain ⟨name, -, rfl⟩ := mem_map.mp hm
        rfl
      · simp at hm
  · exact fun m hm => g.length_names_gapAround _ _ m (Option.mem_toList.mp hm)
  · exact fun m hm => absurd hm not_mem_nil

theorem nodup_names_frame (h : o.frame g = .ok f) :
    (∀ m ∈ f.marks, m.2.names.Nodup) ∧ (∀ m ∈ f.around, m.names.Nodup) ∧
      ∀ m ∈ f.between, m.names.Nodup := by
  obtain ⟨mods, own, slot, -, hown, -, rfl⟩ := frame_eq_ok h
  refine ⟨fun m hm => ?_, fun m hm => ?_, fun m hm => ?_⟩
  · rcases mem_append.mp hm with hm | hm
    · obtain ⟨x, -, hm⟩ := mem_flatMap.mp hm
      exact g.nodup_names_modified _ _ _ x m hm
    · obtain ⟨x, hx, rfl⟩ := mem_map.mp hm
      exact Mark.nodup_names ((yields_own g o mods _).of_ok hown x hx)
  · change m ∈ (if _ then _ else _) at hm
    split at hm
    · exact Mark.nodup_names (g.length_names_gapAround _ _ m hm)
    · cases hm
  · change m ∈ (if _ then _ else _) at hm
    split at hm
    · exact Mark.nodup_names (g.length_names_gapBetween _ _ m hm)
    · cases hm

end Occurrence

namespace Sketch

variable {kids : List Sketch}

section Distinct

variable {g : Stage} {o : Occurrence} {f : Frame} {st : Stroke}

theorem distinct_of_mem_strokes (hframe : o.frame g = .ok f) {v w : Nat} (h : st ∈ f.strokes v w) :
    st.Distinct := by
  unfold Frame.strokes at h
  rcases mem_append.mp h with h | h
  · rcases mem_append.mp h with h | h
    · obtain ⟨p, -, rfl⟩ := mem_map.mp h
      exact ⟨nodup_singleton _, nodup_singleton _⟩
    · obtain ⟨c, -, h⟩ := mem_flatMap.mp h
      obtain ⟨p, -, rfl⟩ := mem_map.mp h
      exact ⟨nodup_singleton _, nodup_singleton _⟩
  · obtain ⟨m, hm, rfl⟩ := mem_map.mp h
    exact ⟨nodup_singleton _, (Occurrence.nodup_names_frame hframe).1 m hm⟩

theorem distinct_of_mem_gap (hframe : o.frame g = .ok f) (hkids : (kids.flatMap labels).Nodup)
    (h : st ∈ f.gap (kids.map view)) : st.Distinct := by
  unfold Frame.gap at h
  split at h
  · obtain ⟨m, hm, rfl⟩ := mem_map.mp h
    refine ⟨?_, (Occurrence.nodup_names_frame hframe).2.2 m (Option.mem_toList.mp hm)⟩
    exact (hkids.sublist (views_sublist_labels kids)).sublist (tail_sublist _)
  · simp at h

theorem Drawn.distinct_strokes (hk : k.Drawn g o) (hn : k.labels.Nodup) :
    ∀ st ∈ k.strokes, st.Distinct := by
  induction k using inductionOn generalizing o with
  | plain v inner f kids ih =>
    cases hk with
    | plain hframe hslot hinner hkids =>
      rw [labels, ← cons_append] at hn
      have hn := (nodup_append.mp hn).2.1
      rw [strokes]
      intro st hst
      rcases mem_append.mp hst with hst | hst
      · rcases mem_append.mp hst with hst | hst
        · rcases mem_append.mp hst with hst | hst
          · exact distinct_of_mem_strokes hframe hst
          · obtain ⟨k, hk, hst⟩ := mem_flatMap.mp hst
            obtain ⟨p, -, hd⟩ := exists_mem_of_forall₂ hkids hk
            exact ih k hk hd (nodup_labels_of_mem hn hk) st hst
        · obtain ⟨m, hm, rfl⟩ := mem_map.mp hst
          exact ⟨nodup_singleton _,
            (Occurrence.nodup_names_frame hframe).2.1 m (Option.mem_toList.mp hm)⟩
      · exact distinct_of_mem_gap hframe hn hst
  | slot f site key properties kids ih =>
    cases hk with
    | slot hframe hslot hproperties hkids =>
      rw [strokes]
      exact fun st hst => distinct_of_mem_strokes hframe hst

theorem distinct_of_mem_scope (hframe : o.frame g = .ok f) {os : List Occurrence}
    (hkids : Forall₂ (Drawn g) os kids) (hn : (kids.flatMap labels).Nodup) :
    ∀ st ∈ scope f kids, st.Distinct := by
  intro st hst
  rcases mem_append.mp hst with hst | hst
  · obtain ⟨k, hk, hst⟩ := mem_flatMap.mp hst
    obtain ⟨p, -, hd⟩ := exists_mem_of_forall₂ hkids hk
    exact hd.distinct_strokes (nodup_labels_of_mem hn hk) st hst
  · exact distinct_of_mem_gap hframe hn hst

end Distinct

/-- The properties retained for strokes are as distinct as these. -/
theorem distinct_of_properties {bs : List BoundProperty} {ss : List Stroke}
    (hbs : bs.map BoundProperty.stroke = ss.filter Stroke.isBound) (hss : ∀ st ∈ ss, st.Distinct) :
    ∀ b ∈ bs, b.stroke.Distinct := by
  intro b hb
  exact hss b.stroke (mem_filter.mp (hbs ▸ mem_map_of_mem hb)).1

theorem mem_bound_plain {v : Nat} {inner : Option Nat} :
    b ∈ (plain v inner f kids).slots.flatMap Slot.bound ↔
      ∃ k ∈ kids, b ∈ k.slots.flatMap Slot.bound := by
  rw [slots, flatMap_assoc, mem_flatMap]

theorem mem_bound_slot {properties : List BoundProperty} :
    b ∈ (slot f site key properties kids).slots.flatMap Slot.bound ↔
      b ∈ properties ∨ ∃ k ∈ kids, b ∈ k.slots.flatMap Slot.bound := by
  rw [slots, flatMap_singleton, Slot.bound, flatMap_assoc, mem_append,
    mem_flatMap]

theorem Drawn.distinct_bound (hk : k.Drawn g o) (hn : k.labels.Nodup) :
    ∀ b ∈ k.slots.flatMap Slot.bound, b.stroke.Distinct := by
  induction k using inductionOn generalizing o with
  | plain v inner f kids ih =>
    cases hk with
    | plain hframe hslot hinner hkids =>
      rw [labels, ← cons_append] at hn
      intro b hb
      obtain ⟨k, hk, hb⟩ := mem_bound_plain.mp hb
      obtain ⟨p, -, hd⟩ := exists_mem_of_forall₂ hkids hk
      exact ih k hk hd (nodup_labels_of_mem (nodup_append.mp hn).2.1 hk) b hb
  | slot f site key properties kids ih =>
    cases hk with
    | slot hframe hslot hproperties hkids =>
      rw [labels] at hn
      have hn := (nodup_cons.mp hn).2
      intro b hb
      rcases mem_bound_slot.mp hb with hb | ⟨k, hk, hb⟩
      · exact distinct_of_properties hproperties (distinct_of_mem_scope hframe hkids hn) b hb
      · obtain ⟨p, -, hd⟩ := exists_mem_of_forall₂ hkids hk
        exact ih k hk hd (nodup_labels_of_mem hn hk) b hb

theorem Current.last_eq (h : k.Current s) :
    ∀ b ∈ k.slots.flatMap Slot.bound, b.last = s.encoded? b.formula b.encoding := by
  induction k using inductionOn with
  | plain v inner f kids ih =>
    rw [Current] at h
    intro b hb
    obtain ⟨k, hk, hb⟩ := mem_bound_plain.mp hb
    exact ih k hk (h k hk) b hb
  | slot f site key properties kids ih =>
    rw [Current] at h
    intro b hb
    rcases mem_bound_slot.mp hb with hb | ⟨k, hk, hb⟩
    · exact h.2.1 b hb
    · exact ih k hk (h.2.2 k hk) b hb

end Sketch

theorem Layout.distinct_strokes {l : Layout} (hk : k.Drawn g o) (hn : k.labels.Nodup) :
    ∀ st ∈ l.strokes g k, st.Distinct := by
  intro st hst
  rcases mem_append.mp hst with hst | hst
  · exact hk.distinct_strokes hn st hst
  · unfold padding at hst
    simp only at hst
    split at hst
    · obtain ⟨name, -, rfl⟩ := mem_map.mp hst
      exact ⟨nodup_singleton _, nodup_singleton _⟩
    · simp at hst

/-! ### Updates -/

/-- A write changes no tag and no children. -/
theorem ViewTree.outline?_replay_of_writes {ops : List ViewOp} (h : ∀ op ∈ ops, op.isWrite = true)
    (t : ViewTree) (v : Nat) : (t.replay ops).outline? v = t.outline? v := by
  induction ops generalizing t with
  | nil => rfl
  | cons op ops ih =>
    have hwrite := h op mem_cons_self
    have hnone := ViewOp.created?_of_isWrite hwrite
    have hop : (t.apply op).outline? v = t.outline? v := by
      rw [outline?_apply t (by simp [hnone]), ViewOp.outlined_of_isWrite hwrite]
    exact (ih (fun op hop => h op (mem_cons_of_mem _ hop)) (t.apply op)).trans hop

namespace BoundProperty

/-- The operations that a property needs when its native form changes between two scenes. -/
def writes (s s' : Scene) (b : BoundProperty) : List ViewOp :=
  if s'.encoded? b.formula b.encoding = s.encoded? b.formula b.encoding then []
  else b.views.flatMap fun v => b.names.map fun name =>
    .write v name (s'.encoded? b.formula b.encoding)

variable {s' : Scene}

theorem rewrites_eq_writes (h : s.Agree s' changed) (hb : b.last = s.encoded? b.formula b.encoding) :
    b.rewrites s' changed = b.writes s s' := by
  rw [rewrites, writes, next_eq h hb, hb]

theorem isWrite_of_mem_writes {op : ViewOp} (h : op ∈ b.writes s s') : op.isWrite = true := by
  unfold writes at h
  split at h
  · simp at h
  · obtain ⟨v, -, h⟩ := mem_flatMap.mp h
    obtain ⟨name, -, rfl⟩ := mem_map.mp h
    exact ViewOp.isWrite_write _ _ _

end BoundProperty

theorem touches_iff {deps : List DataPath} :
    touches deps changed = true ↔ ∃ p ∈ deps, ∃ q ∈ changed, q.overlaps p = true := by
  simp only [touches, any_eq_true]

namespace Renderer

variable {r : Renderer} {l : Layout} {size : Size} {c d : Context} {cs : List Context}
  {R : Rendering}

theorem exists_refresh {stats : UpdateStats} (h : (r.update R d).result = .ok stats) :
    ∃ retained p, (Progress.refresh (r.scene R.size d) (R.context.diff d) R.layout.root
        R.retained).run ⟨R.tree, [], 0, 0⟩ = ((retained, none), p) ∧
      (r.update R d).log = p.log.reverse ∧ (r.update R d).rendering.tree = p.tree ∧
      stats = ⟨(R.context.diff d).length, p.evaluated, p.log.reverse.countP ViewOp.isWrite,
        p.rebuilt⟩ := by
  rcases hrun : (Progress.refresh (r.scene R.size d) (R.context.diff d) R.layout.root
    R.retained).run ⟨R.tree, [], 0, 0⟩ with ⟨⟨retained, error⟩, p⟩
  -- without a change no refresh is run, which comes to the same as running it
  have hif : (if (R.context.diff d).isEmpty = true then
      ((R.retained, none), (⟨R.tree, [], 0, 0⟩ : Progress))
      else (Progress.refresh (r.scene R.size d) (R.context.diff d) R.layout.root
        R.retained).run ⟨R.tree, [], 0, 0⟩) = ((retained, error), p) := by
    split
    · rename_i hnil
      rw [isEmpty_iff.mp hnil, Progress.refresh_nil] at hrun
      exact hrun
    · exact hrun
  have hscene : (⟨r.target, r.style, R.size, d⟩ : Scene) = r.scene R.size d := rfl
  unfold update at h ⊢
  simp only [hscene, hif] at h ⊢
  cases error with
  | none =>
    obtain rfl := Except.ok.inj h
    exact ⟨retained, p, rfl, rfl, rfl, rfl⟩
  | some e => cases h

end Renderer

namespace Rendering.Traces

variable {r : Renderer} {l : Layout} {size : Size} {c : Context} {cs : List Context}
  {R : Rendering} {k : Sketch}

theorem distinct_bound (h : R.Traces r l size cs k) :
    ∀ b ∈ R.retained.bound, b.stroke.Distinct := by
  have hn : k.labels.Nodup := by simpa using h.depicts.placed.nodup
  intro b hb
  rcases mem_append.mp hb with hb | hb
  · exact Sketch.distinct_of_properties h.depicts.properties
      (Layout.distinct_strokes h.depicts.drawn hn) b hb
  · rw [h.depicts.slots] at hb
    exact h.depicts.drawn.distinct_bound hn b hb

theorem last_eq (h : R.Traces r l size (c :: cs) k) (hz : ∀ x ∈ c :: cs, x.unsignedZeros = true) :
    ∀ b ∈ R.retained.bound, b.last = (r.scene size c).encoded? b.formula b.encoding := by
  have hcurrent := h.current hz
  rw [h.context_eq] at hcurrent
  intro b hb
  rcases mem_append.mp hb with hb | hb
  · exact hcurrent.properties b hb
  · rw [h.depicts.slots] at hb
    exact hcurrent.slots.last_eq b hb

end Rendering.Traces

/-- An update that builds nothing anew writes each property whose native form changed once on every
view and under every name that it has, and does nothing else. It evaluates the properties that depend
on a path which overlaps a changed one. -/
theorem Renderer.Runs.update_writes {r : Renderer} {l : Layout} {size : Size} {c d : Context}
    {cs : List Context} {R : Rendering} {stats : UpdateStats} (h : Runs r l size (c :: cs) R)
    (hz : ∀ x ∈ d :: c :: cs, x.unsignedZeros = true) (hok : (r.update R d).result = .ok stats)
    (hkept : stats.rebuilt = 0) :
    (r.update R d).log =
        R.retained.bound.flatMap (BoundProperty.writes (r.scene size c) (r.scene size d)) ∧
      (∀ b ∈ R.retained.bound, b.views.Nodup ∧ b.names.Nodup) ∧
      (∀ op ∈ (r.update R d).log, op.isWrite = true) ∧
      (∀ v, (r.update R d).rendering.tree.outline? v = R.tree.outline? v) ∧
      stats.writes = (r.update R d).log.length ∧
      stats.evaluated = R.retained.bound.countP fun b =>
        decide (∃ p ∈ b.formula.deps, ∃ q ∈ c.diff d, q.overlaps p = true) := by
  obtain ⟨k, hk⟩ := h.traces
  have hz' : ∀ x ∈ c :: cs, x.unsignedZeros = true := fun x hx => hz x (mem_cons_of_mem _ hx)
  have hagree := r.agree_diff size (hz' c mem_cons_self) (hz d mem_cons_self)
  obtain ⟨retained, p, hrun, hlog, htree, rfl⟩ := exists_refresh hok
  rw [hk.context_eq, hk.size_eq] at hrun
  have hp := (Progress.refresh_rebuilt_or_rewritten hrun).resolve_left
    (Nat.not_lt.mpr (Nat.le_of_eq hkept))
  -- what is remembered is what the last context gave, so the skipped ones have not changed either
  have hops : R.retained.bound.flatMap (BoundProperty.rewrites (r.scene size d) (c.diff d)) =
      R.retained.bound.flatMap (BoundProperty.writes (r.scene size c) (r.scene size d)) :=
    flatMap_congr fun b hb => BoundProperty.rewrites_eq_writes hagree (hk.last_eq hz' b hb)
  have hwrites : ∀ op ∈ R.retained.bound.flatMap
      (BoundProperty.writes (r.scene size c) (r.scene size d)), op.isWrite = true := by
    intro op hop
    obtain ⟨b, -, hop⟩ := mem_flatMap.mp hop
    exact BoundProperty.isWrite_of_mem_writes hop
  have hlist : p.log.reverse = R.retained.bound.flatMap
      (BoundProperty.writes (r.scene size c) (r.scene size d)) := by
    rw [hp, Progress.rewritten, Progress.advanced, hops, append_nil, reverse_reverse]
  rw [hlog, hlist]
  refine ⟨rfl, hk.distinct_bound, hwrites, fun v => ?_, ?_, ?_⟩
  · rw [htree, hp, Progress.rewritten, Progress.advanced, hops]
    exact ViewTree.outline?_replay_of_writes hwrites R.tree v
  · exact countP_eq_length.mpr hwrites
  · have hevaluated : p.evaluated =
        R.retained.bound.countP fun b => touches b.formula.deps (c.diff d) := by
      rw [hp, Progress.rewritten, Progress.advanced, Nat.zero_add]
    refine hevaluated.trans (countP_congr fun b _ => ?_)
    rw [touches_iff, decide_eq_true_iff]

/-- Of two entries one gets another name: one label is evaluated and written. -/
theorem Renderer.update_writes_entryList : ∃ R stats,
    Runs ⟨.html, .builtin⟩ entryList ⟨100, 100⟩ [entryContext ["a", "b"]] R ∧
    (update ⟨.html, .builtin⟩ R (entryContext ["a", "c"])).result = .ok stats ∧
    stats.rebuilt = 0 ∧ R.retained.bound.length = 2 ∧
    R.retained.bound.flatMap (BoundProperty.writes
      (scene ⟨.html, .builtin⟩ ⟨100, 100⟩ (entryContext ["a", "b"]))
      (scene ⟨.html, .builtin⟩ ⟨100, 100⟩ (entryContext ["a", "c"]))) =
        [.set 2 "textContent" "c"] ∧
    stats.writes = 1 ∧ stats.evaluated = 1 := by
  have hrun : (run? ⟨.html, .builtin⟩ entryList ⟨100, 100⟩ [entryContext ["a", "b"]]).map (fun R =>
      (R.boundCount, (update ⟨.html, .builtin⟩ R (entryContext ["a", "c"])).log,
        (update ⟨.html, .builtin⟩ R (entryContext ["a", "c"])).result.toOption.map fun stats =>
          (stats.rebuilt, stats.evaluated))) =
        some (2, [.set 2 "textContent" "c"], some (0, 1)) := by
    decide +kernel
  obtain ⟨R, hR, hfacts⟩ := Option.map_eq_some_iff.mp hrun
  simp only [Prod.mk.injEq] at hfacts
  obtain ⟨hcount, hlog, hstats⟩ := hfacts
  have hruns := runs_of_run? hR
  obtain ⟨stats, hE, hstats⟩ := exists_of_toOption_map hstats
  simp only [Prod.mk.injEq] at hstats
  obtain ⟨hwrites, -, -, -, hnumber, -⟩ := hruns.update_writes (by decide +kernel) hE hstats.1
  refine ⟨R, stats, hruns, hE, hstats.1, R.retained.length_bound.trans hcount, ?_, ?_, hstats.2⟩
  · rw [← hwrites, hlog]
  · rw [hnumber, hlog]
    rfl

end Widgetry
