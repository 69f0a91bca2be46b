import Widgetry.Proofs.Element.Refusal
import Widgetry.Proofs.View.Freshness

/-!
# Failing updates

An update is refused exactly when a fresh rendering is, and with the same error. What was done before
the refusal stays: the tree is as it was only when the update was quiet up to there.
-/

namespace Widgetry

namespace Occurrence

theorem outcome_formula (g : Stage) (o : Occurrence) (p : Property) (type : ValueType) :
    outcome (o.formula g p type) = g.env.readProperty o.element p type := by
  unfold formula Env.readProperty
  cases o.element.get? p with
  | none => rfl
  | some v => exact outcome_map _ _

/-- The frame of an element makes the checks that are made of it alone. -/
theorem outcome_frame (g : Stage) (o : Occurrence) : outcome (o.frame g) =
    outcome (Modifier.build g.env o.element) >>= fun _ =>
      g.env.reading o.element o.element.kind.contents (.ok ()) := by
  refine outcome_bind rfl fun mods => ?_
  have hread := outcome_formula g o
  unfold own slotKind
  cases o.element.kind with
  | label | spacer | divider =>
    exact outcome_bind_ok (outcome_bind (hread ..) fun _ => rfl) fun _ => succeeds_ok _
  | image =>
    exact outcome_bind_ok (outcome_bind (hread ..) fun _ => outcome_bind (hread ..) fun _ => rfl)
      fun _ => succeeds_ok _
  | conditional =>
    exact outcome_bind (m := .ok ()) rfl fun _ =>
      outcome_bind_ok (outcome_bind (hread ..) fun _ => rfl) fun _ => succeeds_ok _
  | _ => rfl

/-- An element is refused for what is written in it or below. -/
theorem concerns_of_refused {T : Location → Prop} {S : Binding → Prop} {s : Scene} {o : Occurrence}
    (hS : o.element.Suits T S) {e : Error} (h : o.refusal s = some e) : e.Concerns s.env T S := by
  cases hf : o.frame s.stage with
  | error e' =>
    have hframe : FailsBy (Error.Concerns s.env T S) (o.frame s.stage) := by
      rw [← failsBy_outcome_iff, outcome_frame]
      exact (failsBy_outcome_iff.mpr (Modifier.failsBy_build _ hS)).bind fun _ =>
        Env.failsBy_reading _ hS _ (failsBy_ok _ _)
    rw [refusal_of_frame_error hf] at h
    obtain rfl := Option.some.inj h
    exact hframe.of_error hf
  | ok f =>
    rw [refusal_of_frame_ok hf] at h
    obtain ⟨p, hp, he⟩ := List.exists_of_findSome?_eq_some h
    exact concerns_of_refused (hS.child (element_mem_of_mem_kids hp)) he
termination_by sizeOf o.element
decreasing_by exact sizeOf_lt_of_mem_kids hp

variable {s : Scene} {o : Occurrence} {e : Error}

theorem concerns_of_refusal {S : Binding → Prop} (hS : o.element.StraysMeet S)
    (h : o.refusal s = some e) : e.Concerns s.env (fun _ => True) S :=
  concerns_of_refused hS.suits h

theorem ordinary_of_refusal (h : o.refusal s = some e) :
    e.Ordinary := (concerns_of_refusal (S := fun _ => True) (fun _ _ _ _ _ _ _ => trivial) h).ordinary

end Occurrence

namespace Renderer

variable {r : Renderer} {l : Layout} {size : Size} {c d : Context} {cs : List Context}
  {R : Rendering} {k : Sketch}

theorem exists_refusal_of_render {E : Error} (h : r.render l size c = .error E) :
    ∃ e, l.occurrence.refusal (r.scene size c) = some e ∧ E = e.inWidget l.name := by
  cases hr : l.occurrence.refusal (r.scene size c) with
  | none =>
    obtain ⟨tree, retained, k, log, hrender, -⟩ := exists_render hr
    rw [hrender] at h
    cases h
  | some e =>
    rw [render_eq_error hr] at h
    exact ⟨e, rfl, (Except.error.inj h).symm⟩

/-- Without negative zeros an update is refused where the root is. -/
theorem refusals_eq_refusal (h : R.Traces r l size (c :: cs) k)
    (hz : ∀ x ∈ c :: cs, x.unsignedZeros = true) (hd : d.unsignedZeros = true) :
    Slot.refusals (r.scene R.size d) (R.context.diff d) R.layout.root k.slots =
      l.occurrence.refusal (r.scene size d) := by
  have hcontext : R.context = c := h.context_eq
  have hcurrent := h.current hz
  have hdrawn := h.depicts.drawn
  rw [h.layout_eq, h.size_eq] at hdrawn ⊢
  rw [hcontext] at hcurrent hdrawn ⊢
  exact Sketch.refusals_slots (r.agree_diff size (hz c List.mem_cons_self) hd) hdrawn hcurrent.slots
    l.stands_occurrence

/-- An update fails exactly when a fresh rendering fails, and with the same error, which is never that
the rendering does not match its layout. -/
theorem Runs.update_error_iff (h : Runs r l size (c :: cs) R)
    (hz : ∀ x ∈ d :: c :: cs, x.unsignedZeros = true) (E : Error) :
    ((r.update R d).result = .error E ↔ r.render R.layout R.size d = .error E) ∧
      ((r.update R d).result = .error E → ∀ place, E.root ≠ .schema place .handleMismatch) := by
  obtain ⟨k, hk⟩ := h.traces
  have hrefusals := refusals_eq_refusal hk (fun x hx => hz x (List.mem_cons_of_mem _ hx))
    (hz d List.mem_cons_self)
  cases hr : l.occurrence.refusal (r.scene size d) with
  | none =>
    rw [hr] at hrefusals
    obtain ⟨⟨stats, hresult⟩, -⟩ := hk.depicts.update hrefusals
    obtain ⟨tree, retained, k', log, hrender, -⟩ := exists_render hr
    rw [hresult, hk.layout_eq, hk.size_eq, hrender]
    simp
  | some e =>
    rw [hr] at hrefusals
    obtain ⟨hresult, -⟩ := hk.depicts.update_refused hrefusals
    rw [hresult, hk.layout_eq, hk.size_eq, render_eq_error hr]
    refine ⟨by simp only [Except.error.injEq], fun he => ?_⟩
    obtain rfl := Except.error.inj he
    exact (Occurrence.ordinary_of_refusal hr).inWidget l.name

/-- A label, and below it another one that is shown on a condition and has no valid color. -/
def alertLayout : Layout :=
  ⟨"Alert", "Alert", "", none, [⟨"small", 100, 100⟩],
    ⟨.column, none, [],
      [⟨.label, none, [(.text, .binding ⟨.data, [.key "title"]⟩)], [], .root⟩,
        ⟨.conditional, none, [(.condition, .binding ⟨.data, [.key "alert"]⟩)],
          [⟨.label, none, [(.text, .literal (.string "!")), (.color, .literal (.string "nocolor"))], [],
            .root⟩], .root⟩], .root⟩, 0⟩

def alertContext (title : String) (alert : Bool) : Context :=
  ⟨.object [("alert", .bool alert), ("title", .string title)], []⟩

/-- The branch that was never built is refused by the update as it is by a fresh rendering. -/
theorem update_error_iff_alertLayout : ∃ R E,
    Runs ⟨.html, .builtin⟩ alertLayout ⟨100, 100⟩ [alertContext "calm" false] R ∧
    (update ⟨.html, .builtin⟩ R (alertContext "storm" true)).result = .error E ∧
    render ⟨.html, .builtin⟩ R.layout R.size (alertContext "storm" true) = .error E := by
  have hrun : (run? ⟨.html, .builtin⟩ alertLayout ⟨100, 100⟩ [alertContext "calm" false]).map
      (fun R => (update ⟨.html, .builtin⟩ R (alertContext "storm" true)).result.toOption.isNone) =
        some true := by
    decide +kernel
  obtain ⟨R, hR, hfails⟩ := Option.map_eq_some_iff.mp hrun
  have hruns := runs_of_run? hR
  obtain ⟨E, hE⟩ := exists_of_toOption_isNone hfails
  have hiff := (hruns.update_error_iff (d := alertContext "storm" true) (by decide +kernel) E).1
  exact ⟨R, E, hruns, hE, hiff.mp hE⟩

/-- An update that fails keeps the context it had, and leaves what is reached from the root as it was
exactly when it was quiet up to the refusal. -/
theorem Runs.update_error (h : Runs r l size cs R) {E : Error}
    (hE : (r.update R d).result = .error E) :
    (r.update R d).rendering.context = R.context ∧ (r.update R d).rendering.layout = R.layout ∧
      (r.update R d).rendering.size = R.size ∧ (r.update R d).rendering.root = R.root ∧
      ((∀ v, R.tree.Reaches R.root v →
          (r.update R d).rendering.tree.view? v = R.tree.view? v) ↔
        R.retained.Quiet (r.scene R.size d) (R.context.diff d) R.layout.root R.tree) := by
  obtain ⟨k, hk⟩ := h.traces
  cases hr : Slot.refusals (r.scene R.size d) (R.context.diff d) R.layout.root k.slots with
  | none =>
    obtain ⟨⟨stats, hresult⟩, -⟩ := hk.depicts.update hr
    rw [hresult] at hE
    cases hE
  | some e =>
    obtain ⟨-, tree, retained, hrendering, hquiet⟩ := hk.depicts.update_refused hr
    rw [hrendering]
    refine ⟨rfl, rfl, rfl, rfl, ?_⟩
    simp only [hk.reaches_iff]
    exact hquiet

/-- The label shows the title of a context that the rendering does not have. -/
theorem not_quiet_alertLayout : ∃ R E,
    Runs ⟨.html, .builtin⟩ alertLayout ⟨100, 100⟩ [alertContext "calm" false] R ∧
    (update ⟨.html, .builtin⟩ R (alertContext "storm" true)).result = .error E ∧
    R.tree.property? 1 "textContent" = some "calm" ∧
    (update ⟨.html, .builtin⟩ R (alertContext "storm" true)).rendering.tree.property? 1 "textContent" =
      some "storm" ∧
    ¬ R.retained.Quiet (scene ⟨.html, .builtin⟩ R.size (alertContext "storm" true))
      (R.context.diff (alertContext "storm" true)) R.layout.root R.tree := by
  have hrun : (run? ⟨.html, .builtin⟩ alertLayout ⟨100, 100⟩ [alertContext "calm" false]).map
      (fun R => ((update ⟨.html, .builtin⟩ R (alertContext "storm" true)).result.toOption.isNone,
        R.tree.property? 1 "textContent", decide (1 ∈ R.tree.children R.root),
        (update ⟨.html, .builtin⟩ R (alertContext "storm" true)).rendering.tree.property? 1
          "textContent")) = some (true, some "calm", true, some "storm") := by
    decide +kernel
  obtain ⟨R, hR, hfacts⟩ := Option.map_eq_some_iff.mp hrun
  simp only [Prod.mk.injEq, decide_eq_true_eq] at hfacts
  obtain ⟨hfails, hbefore, hchild, hafter⟩ := hfacts
  have hruns := runs_of_run? hR
  obtain ⟨E, hE⟩ := exists_of_toOption_isNone hfails
  obtain ⟨-, -, -, -, hiff⟩ := hruns.update_error hE
  refine ⟨R, E, hruns, hE, hbefore, hafter, fun hquiet => ?_⟩
  have hsame := hiff.mpr hquiet 1 (.child .refl hchild)
  rw [ViewTree.property?_congr hsame, hbefore] at hafter
  exact absurd hafter (by decide)

end Renderer

end Widgetry
