import Widgetry.Proofs.Element.Grammar
import Widgetry.Proofs.Expr.Portability
import Widgetry.Proofs.Sizes
import Widgetry.Style.Modifier

/-!
# Accepted elements

An environment accepts an element when it accepts its style, its contents and the children that may
be shown. What one environment accepts, every other does that knows the same names.
-/

namespace Widgetry

/-- The properties of a kind beside its style, with the types they are read at. -/
def Kind.contents : Kind → List (Property × ValueType)
  | .label => [(.text, .string)]
  | .image => [(.src, .string), (.size, .number)]
  | .spacer => [(.size, .number)]
  | .divider => [(.thickness, .number)]
  | .conditional => [(.condition, .bool)]
  | _ => []

/-- The children that may be shown: the template of a loop, the two branches of a conditional. -/
def Element.shown (x : Element) : List Element :=
  match x.kind with
  | .column | .row | .stack | .scrollView => x.children
  | .forEach => x.children.take 1
  | .conditional => x.children.take 2
  | _ => []

variable {env : Env} {x : Element} {p : Property} {type : ValueType}

namespace Modifier

variable {place : Location}

theorem succeeds_alignment_iff {v : PropertyValue} {constant? : Alignment → Option String} :
    Succeeds (alignment env place v constant?) ↔
      ((Alignment.ofKeyword? (v.string?.getD "")).bind constant?).isSome = true := by
  simp only [alignment]
  cases (Alignment.ofKeyword? (v.string?.getD "")).bind constant? with
  | none => exact ⟨nofun, nofun⟩
  | some s => exact ⟨fun _ => rfl, fun _ => succeeds_ok _⟩

theorem succeeds_weight_iff {w : FontWeight} :
    Succeeds (weight env place w) ↔ (env.style.fontWeight? env.platform w).isSome = true := by
  unfold weight
  cases env.style.fontWeight? env.platform w with
  | none => exact ⟨nofun, nofun⟩
  | some s => exact ⟨fun _ => rfl, fun _ => succeeds_ok _⟩

theorem succeeds_buildFrom_iff {ps : List Property} :
    Succeeds (buildFrom env x ps) ↔
      ∀ p ∈ ps, ∀ v ∈ x.get? p, Succeeds (value? env (x.place.field p.name) p v) := by
  induction ps with
  | nil => exact ⟨fun _ => nofun, fun _ => succeeds_ok _⟩
  | cons p ps ih =>
    rw [List.forall_mem_cons, buildFrom]
    cases x.get? p with
    | none => simpa using ih
    | some v =>
      have hfirst : (∀ w ∈ some v, Succeeds (value? env (x.place.field p.name) p w)) ↔
          Succeeds (value? env (x.place.field p.name) p v) := by simp
      rw [hfirst]
      apply succeeds_bind_iff
      intro value
      exact (succeeds_bind_iff_left fun _ => succeeds_ok _).trans ih

/-- All platforms apply the same properties, each in an order of its own. -/
theorem order_subset (p q : Platform) : order p ⊆ order q := by
  cases p <;> cases q <;> decide

theorem succeeds_alignment_congr {e f : Env} (place : Location) (v : PropertyValue)
    {constant constant' : Alignment → Option String}
    (hc : ∀ a, (constant a).isSome = (constant' a).isSome) :
    Succeeds (alignment e place v constant) ↔ Succeeds (alignment f place v constant') := by
  rw [succeeds_alignment_iff, succeeds_alignment_iff]
  cases Alignment.ofKeyword? (v.string?.getD "") with
  | none => rfl
  | some a => rw [Option.bind_some, Option.bind_some, hc a]

section Alike

variable {e f : Env} (h : e.Alike f)

include h

theorem succeeds_fontWeight_iff (place : Location) (v : PropertyValue) :
    Succeeds (fontWeight e place v) ↔ Succeeds (fontWeight f place v) := by
  have hweight : ∀ w, Succeeds (weight e place w) ↔ Succeeds (weight f place w) := by
    intro w
    rw [succeeds_weight_iff, succeeds_weight_iff, h.fontWeight w]
  unfold fontWeight
  split
  · exact hweight _
  · split
    · exact hweight _
    · exact ⟨nofun, nofun⟩
  · exact succeeds_map_congr (Elaboration.succeeds_property_iff h _ place _)

theorem succeeds_value?_iff (place : Location) (p : Property) (v : PropertyValue) :
    Succeeds (value? e place p v) ↔ Succeeds (value? f place p v) := by
  unfold value?
  split
  · rfl
  · rfl
  · split
    · rfl
    · exact succeeds_map_congr (Elaboration.succeeds_property_iff h _ place v)
  · exact succeeds_map_congr (succeeds_alignment_congr place v (h.alignment .horizontal))
  · exact succeeds_map_congr (succeeds_alignment_congr place v (h.alignment .vertical))
  · exact succeeds_map_congr (succeeds_alignment_congr place v h.textAlign)
  · exact succeeds_map_congr (succeeds_fontWeight_iff h place v)
  · exact succeeds_map_congr (Elaboration.succeeds_property_iff h _ place v)

theorem succeeds_build (hx : Succeeds (build e x)) : Succeeds (build f x) := by
  unfold build at hx ⊢
  rw [succeeds_buildFrom_iff] at hx ⊢
  intro p hp v hv
  rw [← succeeds_value?_iff h]
  exact hx p (order_subset _ _ hp) v hv

end Alike

end Modifier

/-- Some properties of an element can be read where they are set. -/
def Env.Reads (env : Env) (x : Element) (contents : List (Property × ValueType)) : Prop :=
  ∀ c ∈ contents, ∀ v ∈ x.get? c.1,
    Succeeds (Elaboration.property env c.2 (x.place.field c.1.name) v)

theorem Env.reads_nil (env : Env) (x : Element) : env.Reads x [] := nofun

theorem Env.reads_cons {contents : List (Property × ValueType)} :
    env.Reads x ((p, type) :: contents) ↔
      (∀ v ∈ x.get? p, Succeeds (Elaboration.property env type (x.place.field p.name) v)) ∧
        env.Reads x contents := List.forall_mem_cons

/-- An element whose style and contents are accepted, and so those of the children that may be
shown. -/
inductive Env.Accepts (env : Env) : Element → Prop
  | intro {x : Element} (style : Succeeds (Modifier.build env x))
      (contents : env.Reads x x.kind.contents) (shown : ∀ y ∈ x.shown, env.Accepts y) :
      env.Accepts x

theorem Env.Alike.accepts {e f : Env} (h : e.Alike f) (hx : e.Accepts x) : f.Accepts x := by
  induction hx with
  | intro style contents _ ih =>
    refine .intro (Modifier.succeeds_build h style) ?_ ih
    intro c hc v hv
    rw [← Elaboration.succeeds_property_iff h]
    exact contents c hc v hv

theorem Env.accepts_iff : env.Accepts x ↔
    Succeeds (Modifier.build env x) ∧ env.Reads x x.kind.contents ∧
      ∀ y ∈ x.shown, env.Accepts y := by
  constructor
  · rintro ⟨style, contents, shown⟩
    exact ⟨style, contents, shown⟩
  · rintro ⟨style, contents, shown⟩
    exact .intro style contents shown

/-! ### What is checked -/

theorem Element.shown_eq_take (x : Element) :
    x.shown = x.children.take (x.kind.showing x.children.length) := by
  unfold shown
  cases x.kind <;> simp [Kind.showing]

/-- A well formed element shows all children. -/
theorem Element.WellFormed.length_le_showing (h : x.WellFormed) :
    x.children.length ≤ x.kind.showing x.children.length := by
  have hcount := h.children
  cases hkind : x.kind <;> simp [hkind, Kind.admitsChildren, Kind.showing] at hcount ⊢ <;> omega

namespace Env

variable (env : Env)

/-- Reads a property where it is set. -/
def readProperty (x : Element) (p : Property) (type : ValueType) : Except Error Unit :=
  match x.get? p with
  | none => .ok ()
  | some v => outcome (Elaboration.property env type (x.place.field p.name) v)

/-- Reads properties one after the other and goes on. -/
def reading (x : Element) (contents : List (Property × ValueType)) (rest : Except Error Unit) :
    Except Error Unit :=
  contents.foldr (fun c rest => env.readProperty x c.1 c.2 >>= fun _ => rest) rest

theorem reading_eq_bind (x : Element) (contents : List (Property × ValueType))
    (rest : Except Error Unit) :
    env.reading x contents rest = env.reading x contents (.ok ()) >>= fun _ => rest := by
  induction contents with
  | nil => rfl
  | cons c contents ih => exact (bind_congr fun _ => ih).trans (bind_assoc ..).symm

mutual

/-- What is checked of an element on any platform: its style, its contents, and the children that may
be shown, in this order. -/
def check : Element → Except Error Unit
  | ⟨kind, id, properties, children, place⟩ =>
      let x : Element := ⟨kind, id, properties, children, place⟩
      outcome (Modifier.build env x) >>= fun _ =>
        env.reading x kind.contents (checkFirst (kind.showing children.length) children)

def checkFirst : Nat → List Element → Except Error Unit
  | 0, _ => .ok ()
  | _ + 1, [] => .ok ()
  | n + 1, x :: xs => check x >>= fun _ => checkFirst n xs

end

theorem checkFirst_zero (xs : List Element) : env.checkFirst 0 xs = .ok () := by rw [checkFirst]

theorem checkFirst_nil (n : Nat) : env.checkFirst n [] = .ok () := by cases n <;> rw [checkFirst]

variable {env} in
/-- A computation that makes the checks of an element first. -/
theorem outcome_first {α β : Type} {m : Except Error α} {f : α → Except Error β} {n : Nat}
    {xs : List Element} (hm : outcome m = env.check x)
    (hf : ∀ a, outcome (f a) = env.checkFirst n xs) :
    outcome (m >>= f) = env.checkFirst (n + 1) (x :: xs) := by
  rw [checkFirst]
  exact outcome_bind hm hf

theorem succeeds_readProperty_iff :
    Succeeds (env.readProperty x p type) ↔
      ∀ v ∈ x.get? p, Succeeds (Elaboration.property env type (x.place.field p.name) v) := by
  unfold readProperty
  cases x.get? p with
  | none => exact iff_of_true (succeeds_ok _) nofun
  | some v => simpa using succeeds_outcome_iff

theorem succeeds_reading_iff {contents : List (Property × ValueType)} {rest : Except Error Unit} :
    Succeeds (env.reading x contents rest) ↔ env.Reads x contents ∧ Succeeds rest := by
  induction contents with
  | nil => exact (and_iff_right (env.reads_nil x)).symm
  | cons c contents ih =>
    rw [reads_cons, and_assoc, ← ih, ← succeeds_readProperty_iff]
    exact succeeds_bind_iff fun _ => Iff.rfl

mutual

theorem succeeds_check_iff (x : Element) : Succeeds (env.check x) ↔ env.Accepts x := by
  cases x with
  | mk kind id properties children place =>
    rw [accepts_iff, check, Element.shown_eq_take, ← succeeds_checkFirst_iff,
      ← succeeds_outcome_iff (x := Modifier.build env _)]
    exact succeeds_bind_iff fun _ => env.succeeds_reading_iff

theorem succeeds_checkFirst_iff (n : Nat) (xs : List Element) :
    Succeeds (env.checkFirst n xs) ↔ ∀ x ∈ xs.take n, env.Accepts x := by
  cases n with
  | zero =>
    rw [checkFirst_zero]
    exact iff_of_true (succeeds_ok _) (by simp)
  | succ n =>
    cases xs with
    | nil =>
      rw [checkFirst_nil]
      exact iff_of_true (succeeds_ok _) (by simp)
    | cons x xs =>
      rw [checkFirst, List.take_succ_cons, List.forall_mem_cons, ← succeeds_check_iff x,
        ← succeeds_checkFirst_iff n xs]
      exact succeeds_bind_iff fun _ => Iff.rfl

end

end Env

/-! ### Layouts -/

namespace Layout

variable {document : Json} {l : Layout}

theorem checked_of_read (h : read document = .ok l) :
    Text.isIdentifier l.name = true ∧
      (l.sizes ≠ [] ∧ (∀ s ∈ l.sizes, s.Sound) ∧ l.sizes.Pairwise SizeClass.Differs) ∧
      ∃ draft, readShape document = .ok draft ∧
        Element.read (Location.root.field "layout") (draft.root.getD .null) = .ok l.root := by
  unfold read at h
  split at h
  · cases h
  · rename_i draft hdraft
    simp only at h
    split at h
    · cases h
    · rename_i hname
      rw [Bool.not_eq_true, Bool.not_eq_false'] at hname
      split at h
      · cases h
      · obtain ⟨_, hsizes, h⟩ := exists_of_bind_eq_ok h
        obtain ⟨root, hroot, h⟩ := exists_of_bind_eq_ok h
        cases h
        exact ⟨hname, succeeds_checkSizes_iff.mp ⟨_, hsizes⟩, draft, hdraft, hroot⟩

theorem sizes_ne_nil_of_read (h : read document = .ok l) : l.sizes ≠ [] := (checked_of_read h).2.1.1

theorem exists_root_of_read (h : read document = .ok l) :
    ∃ place v, Element.read place v = .ok l.root := by
  obtain ⟨-, -, draft, -, hroot⟩ := checked_of_read h
  exact ⟨_, _, hroot⟩

theorem wellFormed_of_read (h : read document = .ok l) : ∀ x ∈ l.root.walk, x.WellFormed := by
  obtain ⟨place, v, hroot⟩ := exists_root_of_read h
  exact Element.sound_of_read PropertyValue.yields_read hroot

end Layout

end Widgetry
