import Widgetry.Proofs.View.Depiction

/-!
# Runs

A run renders a layout and then updates the rendering, each time with another context. After every
run the rendering depicts a sketch of the root; without negative zeros what is retained has the
values of the last context, and the views hold what the contexts leave in their order.
-/

namespace Widgetry

/-- A rendering, and the contexts that led to it, the last one first. -/
inductive Renderer.Runs (r : Renderer) (l : Layout) (size : Size) : List Context → Rendering → Prop
  | render {c : Context} {R : Rendering} {log : List ViewOp}
      (h : r.render l size c = .ok (R, log)) : Runs r l size [c] R
  | update {cs : List Context} {R : Rendering} {c : Context} {stats : UpdateStats}
      (hrun : Runs r l size cs R) (h : (r.update R c).result = .ok stats) :
      Runs r l size (c :: cs) (r.update R c).rendering

/-- The rendering that contexts lead to, the last one first, if no step fails. -/
def Renderer.run? (r : Renderer) (l : Layout) (size : Size) : List Context → Option Rendering
  | [] => none
  | [c] => (r.render l size c).toOption.map Prod.fst
  | c :: cs => (run? r l size cs).bind fun R =>
      (r.update R c).result.toOption.map fun _ => (r.update R c).rendering

variable {r : Renderer} {l : Layout} {size : Size} {cs : List Context} {R : Rendering} {k : Sketch}

theorem Renderer.runs_of_run? (h : r.run? l size cs = some R) : r.Runs l size cs R := by
  induction cs generalizing R with
  | nil => cases h
  | cons c cs ih =>
    cases cs with
    | nil =>
      obtain ⟨⟨R', log⟩, hrender, rfl⟩ := Option.map_eq_some_iff.mp h
      cases hr : r.render l size c with
      | error e =>
        rw [hr] at hrender
        cases hrender
      | ok x =>
        rw [hr] at hrender
        obtain rfl := Option.some.inj hrender
        exact .render hr
    | cons d cs =>
      obtain ⟨R', hR', hupdate⟩ := Option.bind_eq_some_iff.mp h
      obtain ⟨stats, hstats, rfl⟩ := Option.map_eq_some_iff.mp hupdate
      cases hr : (r.update R' c).result with
      | error e =>
        rw [hr] at hstats
        cases hstats
      | ok x => exact .update (ih hR') hr

/-- What is known of a rendering after a run. -/
structure Rendering.Traces (r : Renderer) (l : Layout) (size : Size) (cs : List Context)
    (R : Rendering) (k : Sketch) : Prop where
  layout_eq : R.layout = l
  size_eq : R.size = size
  context : cs.head? = some R.context
  depicts : R.Depicts r k
  current : (∀ c ∈ cs, c.unsignedZeros = true) → R.Current (r.scene size R.context) k
  painted : (∀ c ∈ cs, c.unsignedZeros = true) →
    R.PaintedSince (cs.map (r.scene size)) (r.scene size R.context).stage k

theorem Rendering.Traces.context_eq {c : Context} (h : R.Traces r l size (c :: cs) k) :
    R.context = c := (Option.some.inj h.context).symm

namespace Renderer

variable {r : Renderer} {l : Layout} {size : Size} {cs : List Context} {R : Rendering} {c : Context}

theorem traces_render {log : List ViewOp} (h : r.render l size c = .ok (R, log)) :
    ∃ k, R.Traces r l size [c] k := by
  cases hr : l.occurrence.refusal (r.scene size c) with
  | some e =>
    rw [render_eq_error hr] at h
    cases h
  | none =>
    obtain ⟨tree, retained, k, log', hrender, hdepicts, hcurrent, hpainted⟩ := exists_render hr
    rw [hrender] at h
    cases h
    exact ⟨k, rfl, rfl, rfl, hdepicts, fun _ => hcurrent, fun _ => hpainted⟩

variable {stats : UpdateStats}

/-- An update that succeeds is not refused anywhere. -/
theorem refusals_eq_none (hd : R.Depicts r k) (h : (r.update R c).result = .ok stats) :
    Slot.refusals (r.scene R.size c) (R.context.diff c) R.layout.root k.slots = none := by
  cases hr : Slot.refusals (r.scene R.size c) (R.context.diff c) R.layout.root k.slots with
  | none => rfl
  | some e =>
    rw [(hd.update_refused hr).1] at h
    cases h

theorem traces_update (ht : R.Traces r l size cs k) (h : (r.update R c).result = .ok stats) :
    ∃ k', (r.update R c).rendering.Traces r l size (c :: cs) k' := by
  obtain ⟨-, tree, retained, k', hrendering, hdepicts, hnext⟩ :=
    ht.depicts.update (refusals_eq_none ht.depicts h)
  have hlayout : (r.update R c).rendering.layout = l := by
    rw [hrendering]
    exact ht.layout_eq
  have hsize : (r.update R c).rendering.size = size := by
    rw [hrendering]
    exact ht.size_eq
  have hcontext : (r.update R c).rendering.context = c := by rw [hrendering]
  obtain ⟨past, rfl⟩ := List.head?_eq_some_iff.mp ht.context
  have hkeep : (∀ d ∈ c :: R.context :: past, d.unsignedZeros = true) →
      (r.update R c).rendering.Current (r.scene size c) k' ∧
      (r.update R c).rendering.PaintedSince
        ((c :: R.context :: past).map (r.scene size)) (r.scene size c).stage k' := by
    intro hz
    have hz' : ∀ d ∈ R.context :: past, d.unsignedZeros = true := fun d hd =>
      hz d (List.mem_cons_of_mem _ hd)
    have hagree := r.agree_diff R.size (hz' _ List.mem_cons_self) (hz _ List.mem_cons_self)
    rw [ht.size_eq] at hnext hagree
    obtain ⟨hcurrent, hpainted⟩ := hnext hagree (ht.current hz')
    exact ⟨hcurrent, hpainted _ (ht.painted hz')⟩
  refine ⟨k', hlayout, hsize, by rw [hcontext]; rfl, hdepicts, fun hz => ?_, fun hz => ?_⟩
  · rw [hcontext]
    exact (hkeep hz).1
  · rw [hcontext]
    exact (hkeep hz).2

theorem Runs.traces (h : Runs r l size cs R) : ∃ k, R.Traces r l size cs k := by
  induction h with
  | render h => exact traces_render h
  | update _ h ih =>
    obtain ⟨k, hk⟩ := ih
    exact traces_update hk h

end Renderer

end Widgetry
