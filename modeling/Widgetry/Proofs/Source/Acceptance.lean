import Widgetry.Proofs.Source.Emission

/-!
# Sources of accepted layouts

Either language makes the checks of an element and no others, so a file is generated just when the
root element passes them at every declared size; else the first check that fails gives the error.
-/

namespace Widgetry.Source

open List

theorem outcome_propertyCode (lang : Language) (env : Env) (item : String) (x : Element)
    (p : Property) (type : ValueType) :
    outcome (propertyCode lang env item x p type) = env.readProperty x p type := by
  unfold propertyCode Env.readProperty
  cases x.get? p with
  | none => rfl
  | some v => exact outcome_bind_ok rfl fun _ => succeeds_ok _

theorem outcome_modifierCodes (lang : Language) (env : Env) (item : String) (x : Element) :
    outcome (modifierCodes lang env item x) = outcome (Modifier.build env x) :=
  outcome_bind_ok rfl fun _ => succeeds_ok _

/-- Checks an element at sizes one after the other. -/
def checkSizes (style : Style) (platform : Platform) (x : Element) :
    List SizeClass → Except Error Unit
  | [] => .ok ()
  | s :: rest => Env.check ⟨style, platform, s.size⟩ x >>= fun _ => checkSizes style platform x rest

theorem succeeds_checkSizes_iff {style : Style} {platform : Platform} {x : Element}
    {sizes : List SizeClass} : Succeeds (checkSizes style platform x sizes) ↔
      ∀ s ∈ sizes, Env.Accepts ⟨style, platform, s.size⟩ x := by
  induction sizes with
  | nil => exact iff_of_true (succeeds_ok _) (forall_mem_nil _)
  | cons s rest ih =>
    rw [checkSizes, forall_mem_cons, ← ih, ← Env.succeeds_check_iff]
    exact succeeds_bind_iff fun _ => Iff.rfl

namespace Dialect

variable {σ : Type} {D : Dialect σ}

/-- To set an element is to read its contents. -/
def Checks (D : Dialect σ) : Prop := ∀ env stack flow told x mods,
  outcome (D.setting env stack flow told x mods) = env.reading x x.kind.contents (.ok ())

mutual

theorem outcome_element (h : D.Checks) (env : Env) (stack : List String) (flow : Flow) (told : σ)
    (x : Element) : outcome (D.element env stack flow told x) = env.check x := by
  cases x with
  | mk kind id properties children place =>
    rw [element, Env.check, Env.reading_eq_bind]
    refine outcome_bind (outcome_modifierCodes ..) fun mods => outcome_bind (h ..) fun setting => ?_
    exact outcome_bind_ok (outcome_elements h ..) fun _ => succeeds_ok _

theorem outcome_elements (h : D.Checks) (env : Env) (stack : List String) (flow : Flow)
    (between : List Directive) (first : Bool) (n : Nat) (xs : List Element) :
    outcome (D.elements env stack flow between first n xs) = env.checkFirst n xs := by
  cases n with
  | zero => rw [elements, Env.checkFirst_zero]; rfl
  | succ n =>
    cases xs with
    | nil => rw [elements, Env.checkFirst_nil]; rfl
    | cons x xs =>
      rw [elements]
      exact Env.outcome_first (outcome_element h ..) fun _ =>
        outcome_bind_ok (outcome_elements h ..) fun _ => succeeds_ok _

end

theorem outcome_sizes (h : D.Checks) (style : Style) (l : Layout) (sizes : List SizeClass) :
    outcome (D.sizes style l sizes) = checkSizes style D.platform l.root sizes := by
  induction sizes with
  | nil => rfl
  | cons s sizes ih =>
    exact outcome_bind (outcome_element h ..) fun _ => outcome_bind_ok ih fun _ => succeeds_ok _

end Dialect

theorem Kotlin.checks_dialect : dialect.Checks := by
  intro env stack flow base x mods
  have hread := outcome_propertyCode language env (stack.headD "data") x
  obtain ⟨kind, id, properties, children, place⟩ := x
  cases kind with
  | column | row | stack | scrollView | forEach => rfl
  | label | spacer | divider =>
    exact outcome_bind_ok (outcome_bind (hread ..) fun _ => rfl) fun _ => succeeds_ok _
  | image =>
    exact outcome_bind_ok (outcome_bind (hread ..) fun _ => outcome_bind (hread ..) fun _ => rfl)
      fun _ => succeeds_ok _
  | conditional => exact outcome_bind (hread ..) fun _ => rfl

theorem Swift.checks_dialect : dialect.Checks := by
  intro env stack flow more x mods
  have hread := outcome_propertyCode language env (stack.headD "data") x
  obtain ⟨kind, id, properties, children, place⟩ := x
  cases kind with
  | column | row | stack | scrollView | forEach => rfl
  | label | divider =>
    exact outcome_bind_ok (outcome_bind (hread ..) fun _ => rfl) fun _ => succeeds_ok _
  | image =>
    exact outcome_bind_ok (outcome_bind (hread ..) fun _ => outcome_bind (hread ..) fun _ => rfl)
      fun _ => succeeds_ok _
  | spacer =>
    refine outcome_bind_ok (outcome_bind (hread ..) fun size => ?_) fun _ => succeeds_ok _
    cases size <;> rfl
  | conditional => exact outcome_bind (hread ..) fun _ => rfl

namespace File

theorem outcome_text (style : Style) (package : String) (l : Layout) (target : SourceTarget) :
    outcome (text style package l target) =
      checkSizes style target.platform l.root l.sizesByArea := by
  cases target with
  | glance =>
    refine outcome_bind_ok (outcome_bind_ok ?_ fun _ => succeeds_ok _) fun _ => succeeds_ok _
    rw [Dialect.start_emitSizes]
    exact Dialect.outcome_sizes Kotlin.checks_dialect ..
  | swiftUI =>
    refine outcome_bind_ok (outcome_bind_ok ?_ fun _ => succeeds_ok _) fun _ => succeeds_ok _
    rw [Dialect.start_emitSizes]
    exact Dialect.outcome_sizes Swift.checks_dialect ..

/-- A file is generated just when its platform accepts the root element at every declared size. -/
theorem succeeds_generate_iff (style : Style) (package : String) (target : SourceTarget)
    (l : Layout) : Succeeds (generate style package target l) ↔
      ∀ s ∈ l.sizes, Env.Accepts ⟨style, target.platform, s.size⟩ l.root := by
  have hgenerate : Succeeds (generate style package target l) ↔
      Succeeds (text style package l target) := by
    unfold generate
    cases text style package l target with
    | error e => exact ⟨nofun, nofun⟩
    | ok contents => exact iff_of_true (succeeds_ok _) (succeeds_ok _)
  rw [hgenerate, ← succeeds_outcome_iff, outcome_text, succeeds_checkSizes_iff]
  simp only [Layout.sizesByArea, mem_mergeSort]

/-- A layout has files for all targets if it has them at each of its sizes alone. -/
theorem exists_files_of_singles {document : Json}
    (h : ((Layout.read document).toOption.map fun l => l.sizes.all fun s =>
      SourceTarget.all.all fun target =>
        (generate .builtin defaultPackage target { l with sizes := [s] }).isOk) = some true) :
    ∃ l, Layout.read document = .ok l ∧
      ∀ target, ∃ file, generate .builtin defaultPackage target l = .ok file := by
  obtain ⟨l, hread, hall⟩ := exists_of_toOption_map h
  refine ⟨l, hread, fun target => (succeeds_generate_iff _ _ _ _).mpr fun s hs => ?_⟩
  have hone := all_eq_true.mp (all_eq_true.mp hall s hs) target (by cases target <;> decide)
  exact (succeeds_generate_iff _ _ _ _).mp (succeeds_iff_isOk.mpr hone) s mem_cons_self

end File

end Widgetry.Source
