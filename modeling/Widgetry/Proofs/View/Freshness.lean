import Widgetry.Proofs.View.Likeness

/-!
# Freshness

What a run ends with, compared with a fresh rendering of its last context. Up to the numbers of views
the retained state, the tags and the children are those of the fresh rendering. The properties are so
too exactly when the history of the run is faithful: where several strokes write one property of a
view, an update makes only those again that changed, and may so hide one that comes after them.
-/

namespace Widgetry

open List

theorem exists_renaming {as bs : List Nat} (ha : as.Nodup) (h : as.length = bs.length) :
    ∃ ρ : Nat → Nat, as.map ρ = bs := by
  refine ⟨fun v => bs.getD (as.idxOf v) 0, ext_getElem (by simpa using h) fun i hi hi' => ?_⟩
  rw [getElem_map, ha.idxOf_getElem, getD_eq_getElem?_getD, List.getElem?_eq_getElem hi',
    Option.getD_some]

variable {s : Scene} {k : Sketch} {g : Stage}

theorem findSome?_refusal_eq_none {os : List Occurrence} {ks : List Sketch}
    (h : Forall₂ (Sketch.Drawn s.stage) os ks)
    (hk : ∀ k ∈ ks, ∀ o, k.Drawn s.stage o → o.refusal s = none) :
    os.findSome? (Occurrence.refusal s) = none := by
  refine findSome?_eq_none_iff.mpr fun o ho => ?_
  obtain ⟨k, hmem, hd⟩ := exists_mem_of_forall₂ h.flip ho
  exact hk k hmem o hd

/-- An element with a sketch in a scene is not refused there. -/
theorem Sketch.Drawn.refusal_eq_none {o : Occurrence} (hk : k.Drawn s.stage o) (hc : k.Current s) :
    o.refusal s = none := by
  induction k using inductionOn generalizing o with
  | plain v inner f kids ih =>
    cases hk with
    | plain hframe hslot hinner hkids =>
      rw [Current] at hc
      rw [Occurrence.refusal_of_frame_ok hframe, Occurrence.kids, hslot]
      exact findSome?_refusal_eq_none hkids fun k hk o hd => ih k hk hd (hc k hk)
  | slot f site key properties kids ih =>
    cases hk with
    | @slot _ v _ kind _ _ _ hframe hslot hproperties hkids =>
      rw [Current] at hc
      obtain ⟨hkey, -, hc⟩ := hc
      rw [Occurrence.refusal_of_frame_ok hframe, Occurrence.kids, hslot]
      rw [hkey] at hkids
      exact findSome?_refusal_eq_none hkids fun k hk o hd => ih k hk hd (hc k hk)

namespace Renderer

variable {r : Renderer} {l : Layout} {size : Size} {c : Context} {cs : List Context} {R : Rendering}

/-- A run without negative zeros ends with a rendering that depicts, under another numbering, what a
fresh rendering depicts. -/
theorem Runs.exists_fresh (h : Runs r l size (c :: cs) R)
    (hz : ∀ d ∈ c :: cs, d.unsignedZeros = true) :
    ∃ k ρ F log, R.Traces r l size (c :: cs) k ∧ r.render l size c = .ok (F, log) ∧
      F.Traces r l size [c] (k.rename ρ) := by
  obtain ⟨k, hk⟩ := h.traces
  have hcontext : R.context = c := hk.context_eq
  have hcurrent := hk.current hz
  have hdrawn := hk.depicts.drawn
  rw [hk.layout_eq, hk.size_eq] at hdrawn
  rw [hcontext] at hdrawn hcurrent
  have hrefusal := hdrawn.refusal_eq_none hcurrent.slots
  obtain ⟨tree, retained, k₀, log, hrender, -⟩ := exists_render hrefusal
  obtain ⟨k₀, hk₀⟩ := traces_render hrender
  have hz₀ : ∀ d ∈ [c], d.unsignedZeros = true := fun d hd =>
    hz d (mem_singleton.mp hd ▸ mem_cons_self)
  obtain ⟨hlength, hrename⟩ := hdrawn.resembles hk₀.depicts.drawn hcurrent.slots
    (hk₀.current hz₀).slots
  have hnodup : k.labels.Nodup := by simpa using hk.depicts.placed.nodup
  obtain ⟨ρ, hρ⟩ := exists_renaming hnodup hlength
  exact ⟨k, ρ, _, log, hk, hrender, hrename ρ hρ ▸ hk₀⟩

end Renderer

namespace Slot

variable (ρ : Nat → Nat)

mutual

theorem boundCount_rename (a : Slot) : (a.rename ρ).boundCount = a.boundCount := by
  obtain ⟨site, key, properties, slots⟩ := a
  rw [rename, boundCount, boundCount, length_map, boundCounts_rename slots]

theorem boundCounts_rename (as : List Slot) : boundCounts (as.map (rename ρ)) = boundCounts as := by
  cases as with
  | nil => rfl
  | cons a as =>
    rw [map_cons, boundCounts, boundCounts, boundCount_rename a, boundCounts_rename as]

end

theorem filterMap_missing?_rename (c : Context) (bs : List BoundProperty) :
    (bs.map (BoundProperty.rename ρ)).filterMap (fun p => p.formula.missing? c) =
      bs.filterMap fun p => p.formula.missing? c := by
  rw [filterMap_map]
  rfl

theorem site_rename (a : Slot) : (a.rename ρ).site = a.site.rename ρ := by
  obtain ⟨site, key, properties, slots⟩ := a
  rw [rename]

mutual

theorem missing_rename (c : Context) (a : Slot) : (a.rename ρ).missing c = a.missing c := by
  obtain ⟨site, key, properties, slots⟩ := a
  rw [rename, missing, missing, filterMap_missing?_rename, missingAll_rename c slots]

theorem missingAll_rename (c : Context) (as : List Slot) :
    missingAll c (as.map (rename ρ)) = missingAll c as := by
  cases as with
  | nil => rfl
  | cons a as =>
    rw [map_cons, missingAll, missingAll, missing_rename c a, missingAll_rename c as,
      site_rename]
    rfl

end

/-- What is retained for a slot and below has the values of a scene. -/
def UpToDate (s : Scene) : Slot → Prop
  | ⟨site, key, properties, slots⟩ =>
      key = s.key site.kind ∧
        (∀ b ∈ properties, b.last = s.encoded? b.formula b.encoding) ∧
        ∀ a ∈ slots, a.UpToDate s

end Slot

namespace Retained

/-- What is retained has the values of a scene. -/
def UpToDate (s : Scene) (a : Retained) : Prop :=
  (∀ b ∈ a.properties, b.last = s.encoded? b.formula b.encoding) ∧ ∀ b ∈ a.slots, b.UpToDate s

theorem boundCount_rename (ρ : Nat → Nat) (a : Retained) :
    (a.rename ρ).boundCount = a.boundCount := by
  rw [boundCount, boundCount, rename, length_map, Slot.boundCounts_rename]

theorem missing_rename (ρ : Nat → Nat) (a : Retained) (c : Context) :
    (a.rename ρ).missing c = a.missing c := by
  rw [missing, missing, rename, Slot.filterMap_missing?_rename, Slot.missingAll_rename]

end Retained

theorem Sketch.Current.upToDate (h : k.Current s) : ∀ a ∈ k.slots, a.UpToDate s := by
  induction k using inductionOn with
  | plain v inner f kids ih =>
    rw [Current] at h
    rw [slots]
    intro a ha
    obtain ⟨k, hk, ha⟩ := mem_flatMap.mp ha
    exact ih k hk (h k hk) a ha
  | slot f site key properties kids ih =>
    rw [Current] at h
    rw [slots]
    intro a ha
    rw [mem_singleton.mp ha, Slot.UpToDate]
    refine ⟨h.1, h.2.1, fun a ha => ?_⟩
    obtain ⟨k, hk, ha⟩ := mem_flatMap.mp ha
    exact ih k hk (h.2.2 k hk) a ha

theorem Layout.strokes_rename (ρ : Nat → Nat) (g : Stage) (l : Layout) (k : Sketch) :
    l.strokes g (k.rename ρ) = (l.strokes g k).map (Stroke.rename ρ) := by
  rw [strokes, strokes, Sketch.strokes_rename, Sketch.view_rename, map_append]
  congr 1
  unfold padding
  simp only
  split
  · rw [map_map]
    rfl
  · rfl

namespace Rendering.Traces

variable {r : Renderer} {l : Layout} {size : Size} {cs ds : List Context} {R F : Rendering}
  {k : Sketch} {ρ : Nat → Nat}

theorem framed (h : R.Traces r l size cs k) : k.FramedBy R.tree.outline? :=
  h.depicts.placed.framed k mem_cons_self

theorem reaches_iff (h : R.Traces r l size cs k) {v : Nat} :
    R.tree.Reaches R.root v ↔ v ∈ k.labels := by
  rw [h.depicts.view]
  exact h.framed.reaches_iff h.depicts.drawn.shaped

theorem injOn (h : R.Traces r l size cs (k.rename ρ)) : ∀ v ∈ k.labels, ∀ w ∈ k.labels,
    ρ v = ρ w → v = w := by
  have hnodup := h.depicts.placed.nodup
  rw [flatMap_singleton, Sketch.labels_rename] at hnodup
  exact fun v hv w hw he => inj_on_of_nodup_map hnodup hv hw he

/-- What two renderings of one sketch retain is the same up to the numbers of views. -/
theorem retained_rename {c : Context} (h : R.Traces r l size cs k)
    (h' : F.Traces r l size ds (k.rename ρ)) (hc : R.context = c) (hc' : F.context = c)
    (hz : ∀ d ∈ cs, d.unsignedZeros = true) (hz' : ∀ d ∈ ds, d.unsignedZeros = true) :
    F.retained = R.retained.rename ρ := by
  have hcurrent := h.current hz
  have hcurrent' := h'.current hz'
  have hproperties := h.depicts.properties
  have hproperties' := h'.depicts.properties
  rw [h.layout_eq, h.size_eq] at hproperties
  rw [h'.layout_eq, h'.size_eq] at hproperties'
  subst hc
  rw [hc'] at hcurrent' hproperties'
  have hbound : R.retained.properties.map (BoundProperty.rename ρ) = F.retained.properties := by
    refine BoundProperty.eq_of_map_stroke ?_ ?_ hcurrent'.properties
    · rw [hproperties', Layout.strokes_rename, Stroke.filter_isBound_rename, ← hproperties,
        map_map, map_map]
      rfl
    · intro b hb
      obtain ⟨b, hmem, rfl⟩ := mem_map.mp hb
      exact hcurrent.properties b hmem
  have hslots : F.retained.slots = R.retained.slots.map (Slot.rename ρ) := by
    rw [h'.depicts.slots, h.depicts.slots, Sketch.slots_rename]
  rw [Retained.rename, hbound, ← hslots]

end Rendering.Traces

/-- In the whole layout the history leaves what its last scene gives. -/
def Layout.Faithful (g : Stage) (l : Layout) (h : List Scene) (k : Sketch) : Prop :=
  (∀ v name, Stroke.since (l.strokes g k) v name h =
    Stroke.since (l.strokes g k) v name (h.take 1)) ∧ k.Faithful h

/-- No two strokes of a layout contend, neither outside slots nor in any one of them. -/
def Layout.Uncontested (g : Stage) (l : Layout) (k : Sketch) : Prop :=
  Stroke.Uncontested (l.strokes g k) ∧ k.Uncontested

theorem Layout.Uncontested.faithful {l : Layout} (hk : l.Uncontested g k) (h : List Scene) :
    l.Faithful g h k :=
  ⟨fun v name => hk.1.since_eq v name h, hk.2.faithful h⟩

/-- Two renderings of a sketch, one of them fresh, have the same properties exactly when the history of
the other one is faithful. -/
theorem Rendering.PaintedSince.property?_iff {past : List Scene} {R F : Rendering} {ρ : Nat → Nat}
    (hR : R.PaintedSince (s :: past) g k) (hF : F.PaintedSince [s] g (k.rename ρ))
    (hlayout : F.layout = R.layout) (hc : k.Current s) (hc' : (k.rename ρ).Current s)
    (hρ : ∀ v ∈ k.labels, ∀ w ∈ k.labels, ρ v = ρ w → v = w) :
    (∀ v ∈ k.labels, ∀ name, R.tree.property? v name = F.tree.property? (ρ v) name) ↔
      R.layout.Faithful g (s :: past) k := by
  have hground : ∀ v ∈ k.ground, ∀ name, F.tree.property? (ρ v) name =
      Stroke.since (R.layout.strokes g k) v name [s] := by
    intro v hv name
    rw [hF.ground (ρ v) (by rw [Sketch.ground_rename]; exact mem_map_of_mem hv), hlayout,
      Layout.strokes_rename]
    refine Stroke.foldl_given_rename (fun st hst w hw => ?_) name none
    exact hρ w (Sketch.mem_labels.mpr (.inl (Layout.views_of_mem_strokes st hst w hw))) v
      (Sketch.mem_labels.mpr (.inl hv))
  have hnested : k.PaintedBy s fun v name => F.tree.property? (ρ v) name :=
    ((Sketch.paintedSince_singleton hc').mp hF.nested).of_rename hρ
  constructor
  · intro hsame
    refine ⟨fun v name => ?_, (hR.nested.paintedBy_iff hc).mp (hnested.congr fun v hv name => ?_)⟩
    · by_cases hv : v ∈ k.ground
      · rw [← hR.ground v hv name, hsame v (Sketch.mem_labels.mpr (.inl hv)) name]
        exact hground v hv name
      · have hout : ∀ st ∈ R.layout.strokes g k, v ∉ st.views := fun st hst hv' =>
          hv (Layout.views_of_mem_strokes st hst v hv')
        rw [Stroke.since_of_not_mem hout, Stroke.since_of_not_mem hout]
    · exact hsame v (Sketch.mem_labels.mpr (.inr hv)) name
  · rintro ⟨hfaithful, hslots⟩ v hv name
    rcases Sketch.mem_labels.mp hv with hv | hv
    · rw [hR.ground v hv name, hground v hv name]
      exact hfaithful v name
    · exact ((hR.nested.paintedBy_iff hc).mpr hslots).unique hnested v hv name

/-- A run without negative zeros ends with the tree of a fresh rendering of its last context exactly
when its history is faithful; it always does so when no two strokes contend. -/
theorem Renderer.Runs.alike_render_iff {r : Renderer} {l : Layout} {size : Size} {c : Context}
    {cs : List Context} {R : Rendering} (h : Runs r l size (c :: cs) R)
    (hz : ∀ d ∈ c :: cs, d.unsignedZeros = true) :
    ∃ F log k, r.render l size c = .ok (F, log) ∧ R.Depicts r k ∧ R.Current (r.scene size c) k ∧
      (R.tree.Alike F.tree R.root F.root ↔
        l.Faithful (r.scene size c).stage ((c :: cs).map (r.scene size)) k) ∧
      (l.Uncontested (r.scene size c).stage k → R.tree.Alike F.tree R.root F.root) := by
  obtain ⟨k, ρ, F, log, hR, hrender, hF⟩ := h.exists_fresh hz
  have hcontext : R.context = c := hR.context_eq
  have hcontext' : F.context = c := hF.context_eq
  have hz' : ∀ d ∈ [c], d.unsignedZeros = true := fun d hd =>
    hz d (mem_singleton.mp hd ▸ mem_cons_self)
  have hcurrent := hR.current hz
  have hcurrent' := hF.current hz'
  have hpainted := hR.painted hz
  have hpainted' := hF.painted hz'
  rw [hcontext] at hcurrent hpainted
  rw [hcontext'] at hcurrent' hpainted'
  have hroot : F.root = ρ R.root := by
    rw [hF.depicts.view, hR.depicts.view, Sketch.view_rename]
  have hiff : R.tree.Alike F.tree R.root F.root ↔
      l.Faithful (r.scene size c).stage ((c :: cs).map (r.scene size)) k := by
    rw [hroot, hR.depicts.view, hR.framed.alike_iff hR.depicts.drawn.shaped hR.depicts.placed.sorted
        hF.depicts.placed.sorted hF.framed,
      hpainted.property?_iff hpainted' (hF.layout_eq.trans hR.layout_eq.symm) hcurrent.slots
        hcurrent'.slots hF.injOn, hR.layout_eq]
    rfl
  exact ⟨F, log, k, hrender, hR.depicts, hcurrent, hiff, fun hk => hiff.mpr (hk.faithful _)⟩

/-- A divider whose background and line are both bound: they are the same native property. -/
def contestedDivider : Layout :=
  ⟨"Rule", "Rule", "", none, [⟨"small", 100, 100⟩],
    ⟨.divider, none, [(.backgroundColor, .binding ⟨.data, [.key "ground"]⟩),
      (.color, .binding ⟨.data, [.key "line"]⟩)], [], .root⟩, 0⟩

def dividerContext (ground line : String) : Context :=
  ⟨.object [("ground", .string ground), ("line", .string line)], []⟩

/-- Only the background changes, and the update shows it in place of the line. -/
theorem not_faithful_contestedDivider : ∃ R F log k,
    Renderer.Runs ⟨.html, .builtin⟩ contestedDivider ⟨100, 100⟩
      [dividerContext "#333333" "#222222", dividerContext "#111111" "#222222"] R ∧
    Renderer.render ⟨.html, .builtin⟩ contestedDivider ⟨100, 100⟩
      (dividerContext "#333333" "#222222") = .ok (F, log) ∧
    R.tree.property? R.root "style:background-color" = some "#333333" ∧
    F.tree.property? F.root "style:background-color" = some "#222222" ∧
    R.Depicts ⟨.html, .builtin⟩ k ∧
    ¬ contestedDivider.Faithful ⟨.html, .builtin, ⟨100, 100⟩⟩
      ([dividerContext "#333333" "#222222", dividerContext "#111111" "#222222"].map
        (Renderer.scene ⟨.html, .builtin⟩ ⟨100, 100⟩)) k := by
  have hrun : (Renderer.run? ⟨.html, .builtin⟩ contestedDivider ⟨100, 100⟩
      [dividerContext "#333333" "#222222", dividerContext "#111111" "#222222"]).map
        (fun R => R.tree.property? R.root "style:background-color") = some (some "#333333") := by
    decide +kernel
  have hfresh : (Renderer.render ⟨.html, .builtin⟩ contestedDivider ⟨100, 100⟩
      (dividerContext "#333333" "#222222")).toOption.map
        (fun x => x.1.tree.property? x.1.root "style:background-color") =
          some (some "#222222") := by
    decide +kernel
  obtain ⟨R, hR, hshown⟩ := Option.map_eq_some_iff.mp hrun
  have hruns := Renderer.runs_of_run? hR
  obtain ⟨F, log, k, hF, hdepicts, -, hiff, -⟩ := hruns.alike_render_iff (by decide +kernel)
  rw [hF] at hfresh
  have hfresh : F.tree.property? F.root "style:background-color" = some "#222222" :=
    Option.some.inj hfresh
  refine ⟨R, F, log, k, hruns, hF, hshown, hfresh, hdepicts, fun hfaithful => ?_⟩
  have hsame := (hiff.mpr hfaithful).property? "style:background-color"
  rw [hshown, hfresh] at hsame
  exact absurd hsame (by decide)

/-- After a run without negative zeros nothing that is retained is stale: up to the numbers of views
it is what a fresh rendering of the last context retains. -/
theorem Renderer.Runs.retained_eq_rename {r : Renderer} {l : Layout} {size : Size} {c : Context}
    {cs : List Context} {R : Rendering} (h : Runs r l size (c :: cs) R)
    (hz : ∀ d ∈ c :: cs, d.unsignedZeros = true) :
    ∃ F log ρ, r.render l size c = .ok (F, log) ∧
      Set.InjOn ρ {v | R.tree.Reaches R.root v} ∧ F.root = ρ R.root ∧
      F.retained = R.retained.rename ρ ∧ R.retained.UpToDate (r.scene size c) ∧
      (∀ v, R.tree.Reaches R.root v →
        F.tree.outline? (ρ v) = (R.tree.outline? v).map fun y => (y.1, y.2.map ρ)) ∧
      F.boundCount = R.boundCount ∧ F.missing = R.missing := by
  obtain ⟨k, ρ, F, log, hR, hrender, hF⟩ := h.exists_fresh hz
  have hcontext : R.context = c := hR.context_eq
  have hcontext' : F.context = c := hF.context_eq
  have hretained := hR.retained_rename hF hcontext hcontext' hz fun d hd =>
    hz d (mem_singleton.mp hd ▸ mem_cons_self)
  have hcurrent := hR.current hz
  rw [hcontext] at hcurrent
  refine ⟨F, log, ρ, hrender, ?_, ?_, hretained, ⟨hcurrent.properties, ?_⟩, ?_, ?_, ?_⟩
  · intro v hv w hw he
    exact hF.injOn v (hR.reaches_iff.mp hv) w (hR.reaches_iff.mp hw) he
  · rw [hF.depicts.view, hR.depicts.view, Sketch.view_rename]
  · rw [hR.depicts.slots]
    exact hcurrent.slots.upToDate
  · intro v hv
    exact hR.framed.outline_rename hF.framed v (hR.reaches_iff.mp hv)
  · rw [Rendering.boundCount, Rendering.boundCount, hretained, Retained.boundCount_rename]
  · rw [Rendering.missing, Rendering.missing, hretained, Retained.missing_rename, hcontext, hcontext']

def entryList : Layout :=
  ⟨"Entries", "Entries", "", none, [⟨"small", 100, 100⟩],
    ⟨.forEach, none, [(.items, .binding ⟨.data, [.key "entries"]⟩)],
      [⟨.label, none, [(.text, .binding ⟨.item, [.key "name"]⟩)], [], .root⟩], .root⟩, 0⟩

def entryContext (names : List String) : Context :=
  ⟨.object [("entries", .array (names.map fun name => .object [("name", .string name)]))], []⟩

/-- A list that grows is rebuilt, and retains what a fresh rendering of it retains. -/
theorem retained_entryList : ∃ R F log ρ,
    Renderer.Runs ⟨.html, .builtin⟩ entryList ⟨100, 100⟩
      [entryContext ["a", "b"], entryContext ["a"]] R ∧
    Renderer.render ⟨.html, .builtin⟩ entryList ⟨100, 100⟩ (entryContext ["a", "b"]) = .ok (F, log) ∧
    R.boundCount = 2 ∧ F.retained = R.retained.rename ρ := by
  have hrun : (Renderer.run? ⟨.html, .builtin⟩ entryList ⟨100, 100⟩
      [entryContext ["a", "b"], entryContext ["a"]]).map Rendering.boundCount = some 2 := by
    decide +kernel
  obtain ⟨R, hR, hcount⟩ := Option.map_eq_some_iff.mp hrun
  have hruns := Renderer.runs_of_run? hR
  obtain ⟨F, log, ρ, hF, -, -, hretained, -⟩ := hruns.retained_eq_rename (by decide +kernel)
  exact ⟨R, F, log, ρ, hruns, hF, hcount, hretained⟩

end Widgetry
