import Widgetry.Proofs.Element.Acceptance
import Widgetry.Proofs.Expr.Checking

/-!
# Refused values

Property values and modifiers are refused for what is written in them: a type, a color, an alignment
or weight that the platform lacks, or a binding to the canvas that names no axis. The error carries the
location of the property or of a node of its expression, and none says that a rendering does not match
its layout.
-/

namespace Widgetry

open List

/-- An error other than that of a rendering that does not match its layout. -/
def Error.Ordinary (e : Error) : Prop := ∀ place, e.root ≠ .schema place .handleMismatch

variable {env : Env} {T : Location → Prop} {S : Binding → Prop} {e : Error}

theorem Error.Concerns.ordinary (h : e.Concerns env T S) : e.Ordinary := by
  intro place
  cases h <;> simp [Error.root]

/-- Of the structure of a layout, only stray bindings are complained of. -/
theorem Error.Concerns.root_schema (h : e.Concerns env T S) {place : Location} {cause : SchemaCause}
    (he : e.root = .schema place cause) : ∃ b, cause = .unresolvedSize b ∧ S b := by
  cases h with
  | size _ hb =>
    cases he
    exact ⟨_, rfl, hb⟩
  | _ => cases he

theorem Error.Concerns.place (h : e.Concerns env T S) {place : Location} (he : e.place? = some place) :
    T place := by
  cases h with
  | weight => cases he
  | _ =>
    cases he
    assumption

theorem Error.root_inWidget (name : String) (e : Error) : (e.inWidget name).root = e.root := by
  cases e <;> rfl

theorem Error.place?_inWidget (name : String) (e : Error) : (e.inWidget name).place? = e.place? := by
  rw [place?, root_inWidget]
  rfl

theorem Error.Ordinary.inWidget (h : e.Ordinary) (name : String) : (e.inWidget name).Ordinary := by
  intro place
  rw [Error.root_inWidget]
  exact h place

variable {v : PropertyValue}

section

variable {place : Location}

namespace Modifier

variable (env)

theorem failsBy_alignment (h : T place) (v : PropertyValue) {constant? : Alignment → Option String}
    (hconstant : constant? ∈ [env.style.alignment? env.platform .horizontal,
      env.style.alignment? env.platform .vertical, env.style.textAlign? env.platform]) :
    FailsBy (Error.Concerns env T S) (alignment env place v constant?) := by
  unfold alignment
  dsimp only
  split
  · exact failsBy_ok _ _
  · exact failsBy_error (.alignment h ⟨constant?, hconstant, ‹_›⟩)

theorem failsBy_weight (place : Location) (w : FontWeight) :
    FailsBy (Error.Concerns env T S) (weight env place w) := by
  unfold weight
  split
  · exact failsBy_ok _ _
  · exact failsBy_error (.weight ‹_› place)

theorem failsBy_fontWeight (h : v.Suits T S place) :
    FailsBy (Error.Concerns env T S) (fontWeight env place v) := by
  unfold fontWeight
  split
  · exact failsBy_weight env place _
  · split
    · exact failsBy_weight env place _
    · exact failsBy_error (.type h.place _)
  · exact (Elaboration.failsBy_property env _ h).map _

theorem failsBy_value? (p : Property) (h : v.Suits T S place) :
    FailsBy (Error.Concerns env T S) (value? env place p v) := by
  unfold value?
  split
  · exact failsBy_ok _ _
  · exact failsBy_ok _ _
  · split
    · exact failsBy_ok _ _
    · exact (Elaboration.failsBy_property env _ h).map _
  · exact (failsBy_alignment env h.place v (by simp)).map _
  · exact (failsBy_alignment env h.place v (by simp)).map _
  · exact (failsBy_alignment env h.place v (by simp)).map _
  · exact (failsBy_fontWeight env h).map _
  · exact (Elaboration.failsBy_property env _ h).map _

end Modifier

end

/-! ### Refused elements -/

/-- The values of an element and of all below it meet the conditions. -/
def Element.Suits (T : Location → Prop) (S : Binding → Prop) (x : Element) : Prop :=
  ∀ d ∈ x.walk, ∀ f ∈ d.properties, f.2.Suits T S (d.place.field f.1.name)

/-- The stray bindings of an element and of all below it meet a condition. -/
def Element.StraysMeet (S : Binding → Prop) (x : Element) : Prop :=
  ∀ d ∈ x.walk, ∀ f ∈ d.properties, ∀ b ∈ f.2.bindings, b.isStraySize = true → S b

variable {x : Element}

theorem Element.StraysMeet.suits (h : x.StraysMeet S) : x.Suits (fun _ => True) S :=
  fun d hd f hf => ⟨trivial, fun _ _ => fun _ _ _ => trivial, h d hd f hf⟩

theorem Element.Suits.child {c : Element} (h : x.Suits T S) (hc : c ∈ x.children) :
    c.Suits T S := (forall_mem_walk.mp h).2 c hc

theorem Element.Suits.get? (h : x.Suits T S) {p : Property} (hv : x.get? p = some v) :
    v.Suits T S (x.place.field p.name) :=
  (forall_mem_walk.mp h).1 _ (Table.mem_of_get? hv)

variable (env)

theorem Modifier.failsBy_build (h : x.Suits T S) : FailsBy (Error.Concerns env T S) (build env x) := by
  unfold build
  induction order env.platform with
  | nil => exact failsBy_ok _ []
  | cons p ps ih =>
    rw [buildFrom]
    split
    · exact ih
    · rename_i v hv
      exact (failsBy_value? env p (h.get? hv)).bind fun value => ih.bind fun rest => failsBy_ok _ _

namespace Env

theorem failsBy_reading (h : x.Suits T S) (contents : List (Property × ValueType))
    {rest : Except Error Unit} (hrest : FailsBy (Error.Concerns env T S) rest) :
    FailsBy (Error.Concerns env T S) (env.reading x contents rest) := by
  induction contents with
  | nil => exact hrest
  | cons c contents ih =>
    refine FailsBy.bind ?_ fun _ => ih
    unfold readProperty
    split
    · exact failsBy_ok _ _
    · rename_i v hv
      exact failsBy_outcome_iff.mpr (Elaboration.failsBy_property env _ (h.get? hv))

mutual

theorem failsBy_check (x : Element) (h : x.Suits T S) :
    FailsBy (Error.Concerns env T S) (env.check x) := by
  cases x with
  | mk kind id properties children place =>
    rw [check]
    refine (failsBy_outcome_iff.mpr (Modifier.failsBy_build env h)).bind fun _ => ?_
    exact env.failsBy_reading h _ (failsBy_checkFirst _ children fun c => h.child)

theorem failsBy_checkFirst (n : Nat) (xs : List Element) (h : ∀ x ∈ xs, x.Suits T S) :
    FailsBy (Error.Concerns env T S) (env.checkFirst n xs) := by
  cases n with
  | zero =>
    rw [checkFirst_zero]
    exact failsBy_ok _ _
  | succ n =>
    cases xs with
    | nil =>
      rw [checkFirst_nil]
      exact failsBy_ok _ _
    | cons x xs =>
      obtain ⟨hx, hxs⟩ := forall_mem_cons.mp h
      rw [checkFirst]
      exact (failsBy_check x hx).bind fun _ => failsBy_checkFirst n xs hxs

end

end Env

end Widgetry
