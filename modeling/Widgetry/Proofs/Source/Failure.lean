import Widgetry.Proofs.Element.Refusal
import Widgetry.Proofs.Source.Acceptance

/-!
# Failing generation

A file is not generated only for what is written in the properties of the layout.
-/

namespace Widgetry.Source

variable {T : Location → Prop} {S : Binding → Prop}

theorem failsBy_checkSizes (style : Style) (platform : Platform) {x : Element} (h : x.Suits T S)
    (sizes : List SizeClass) :
    FailsBy (fun e => ∃ env, Error.Concerns env T S e) (checkSizes style platform x sizes) := by
  induction sizes with
  | nil => exact failsBy_ok _ _
  | cons s sizes ih => exact ((Env.failsBy_check _ x h).imp fun _ he => ⟨_, he⟩).bind fun _ => ih

variable {style : Style} {package : String} {target : SourceTarget} {l : Layout} {E : Error}

/-- Generation fails with an error of a value, told of the widget it is in. -/
theorem File.concerns_of_generate (h : l.root.Suits T S)
    (hE : generate style package target l = .error E) :
    ∃ e : Error, (∃ env, e.Concerns env T S) ∧ E = e.inWidget l.name := by
  have htext : FailsBy (fun e => ∃ env, Error.Concerns env T S e) (text style package l target) := by
    rw [← failsBy_outcome_iff, outcome_text]
    exact failsBy_checkSizes style target.platform h l.sizesByArea
  unfold generate at hE
  split at hE
  · cases hE
  · rename_i e he
    exact ⟨e, htext.of_error he, (Except.error.inj hE).symm⟩

theorem File.exists_of_generate_eq_error (h : l.root.StraysMeet S)
    (hE : generate style package target l = .error E) :
    ∃ e : Error, (∃ env, e.Concerns env (fun _ => True) S) ∧ E = e.inWidget l.name :=
  concerns_of_generate h.suits hE

end Widgetry.Source
