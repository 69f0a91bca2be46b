/-!
# Computations that may fail

What holds of the result or of the error of a computation, and what two computations have in common.
-/

namespace Widgetry

variable {ε α β : Type}

/-- A computation whose error meets the first condition or whose result meets the second one. -/
def Meets (P : ε → Prop) (Q : α → Prop) : Except ε α → Prop
  | .error e => P e
  | .ok a => Q a

variable {P : ε → Prop} {Q : α → Prop} {x : Except ε α} {f : α → Except ε β} {e : ε} {b : β}
  {α' β' : Type} {m : Except ε Unit} {R : α → β → Prop} {S : α' → β' → Prop} {y : Except ε β}

theorem Meets.bind {R : β → Prop} (hx : Meets P Q x) (hf : ∀ a, Q a → Meets P R (f a)) :
    Meets P R (x >>= f) := by
  cases x with
  | error e => exact hx
  | ok a => exact hf a hx

theorem Meets.map {R : β → Prop} {f : α → β} (hx : Meets P Q x) (hf : ∀ a, Q a → R (f a)) :
    Meets P R (x.map f) := by
  cases x with
  | error e => exact hx
  | ok a => exact hf a hx

theorem Meets.mono {P' : ε → Prop} {R : α → Prop} (hx : Meets P Q x) (hP : ∀ e, P e → P' e)
    (hQ : ∀ a, Q a → R a) : Meets P' R x := by
  cases x with
  | error e => exact hP e hx
  | ok a => exact hQ a hx

theorem Meets.imp {R : α → Prop} (hx : Meets P Q x) (h : ∀ a, Q a → R a) : Meets P R x :=
  hx.mono (fun _ he => he) h

/-- A computation whose result, if there is one, meets a condition. -/
def Yields (Q : α → Prop) (x : Except ε α) : Prop := Meets (fun _ => True) Q x

theorem yields_error (Q : α → Prop) (e : ε) : Yields Q (.error e : Except ε α) := trivial

theorem Yields.bind {R : β → Prop} (hx : Yields Q x) (hf : ∀ a, Q a → Yields R (f a)) :
    Yields R (x >>= f) := Meets.bind hx hf

theorem Yields.of_ok {a : α} (hx : Yields Q x) (h : x = .ok a) : Q a := by
  subst h
  exact hx

theorem yields_self (x : Except ε α) : Yields (fun a => x = .ok a) x := by
  cases x with
  | error e => trivial
  | ok a => rfl

theorem yields_true (x : Except ε α) : Yields (fun _ => True) x := by
  cases x <;> trivial

/-- A computation whose error, if it fails, meets a condition. -/
def FailsBy (P : ε → Prop) (x : Except ε α) : Prop := Meets P (fun _ => True) x

theorem failsBy_ok (P : ε → Prop) (a : α) : FailsBy P (.ok a : Except ε α) := trivial

theorem failsBy_error (h : P e) : FailsBy P (.error e : Except ε α) := h

theorem FailsBy.bind (hx : FailsBy P x) (hf : ∀ a, FailsBy P (f a)) :
    FailsBy P (x >>= f) := Meets.bind hx fun a _ => hf a

theorem FailsBy.map (hx : FailsBy P x) (f : α → β) :
    FailsBy P (x.map f) := Meets.map hx fun _ _ => trivial

theorem FailsBy.imp {P' : ε → Prop} (hx : FailsBy P x) (h : ∀ e, P e → P' e) : FailsBy P' x :=
  Meets.mono hx h fun _ ha => ha

theorem FailsBy.of_error (hx : FailsBy P x) (h : x = .error e) : P e := by
  subst h
  exact hx

theorem exists_of_bind_eq_ok (h : (x >>= f) = .ok b) : ∃ a, x = .ok a ∧ f a = .ok b := by
  cases x with
  | error e => cases h
  | ok a => exact ⟨a, rfl, h⟩

theorem bind_eq_ok_iff : (x >>= f) = .ok b ↔ ∃ a, x = .ok a ∧ f a = .ok b := by
  refine ⟨exists_of_bind_eq_ok, ?_⟩
  rintro ⟨a, rfl, h⟩
  exact h

theorem exists_of_map_eq_ok {f : α → β} (h : x.map f = .ok b) : ∃ a, x = .ok a ∧ f a = b := by
  cases x with
  | error e => cases h
  | ok a => exact ⟨a, rfl, Except.ok.inj h⟩

/-- What was seen of the result of a computation holds of a result that there is. -/
theorem exists_of_toOption_map {f : α → β} (h : x.toOption.map f = some b) :
    ∃ a, x = .ok a ∧ f a = b := by
  cases x with
  | error e => cases h
  | ok a => exact ⟨a, rfl, Option.some.inj h⟩

theorem exists_of_toOption_isNone (h : x.toOption.isNone = true) : ∃ e, x = .error e := by
  cases x with
  | error e => exact ⟨e, rfl⟩
  | ok a => cases h

def Succeeds (x : Except ε α) : Prop := ∃ a, x = .ok a

theorem succeeds_ok (a : α) : Succeeds (.ok a : Except ε α) := ⟨a, rfl⟩

theorem not_succeeds_error (e : ε) : ¬Succeeds (.error e : Except ε α) := by
  rintro ⟨a, h⟩
  cases h

theorem succeeds_iff_isOk : Succeeds x ↔ x.isOk = true := by
  cases x with
  | error e => exact iff_of_false (not_succeeds_error e) Bool.false_ne_true
  | ok a => exact iff_of_true (succeeds_ok a) rfl

instance (x : Except ε α) : Decidable (Succeeds x) := decidable_of_iff _ succeeds_iff_isOk.symm

/-- Two steps succeed when both do, where the second one succeeds alike on all that the first gives. -/
theorem Yields.succeeds_bind_iff {P : Prop} (hx : Yields Q x) (hf : ∀ a, Q a → (Succeeds (f a) ↔ P)) :
    Succeeds (x >>= f) ↔ Succeeds x ∧ P := by
  cases x with
  | error e => exact ⟨nofun, nofun⟩
  | ok a => exact ⟨fun h => ⟨succeeds_ok a, (hf a hx).mp h⟩, fun h => (hf a hx).mpr h.2⟩

theorem succeeds_bind_iff {P : Prop} (hf : ∀ a, Succeeds (f a) ↔ P) :
    Succeeds (x >>= f) ↔ Succeeds x ∧ P :=
  (yields_true x).succeeds_bind_iff fun a _ => hf a

theorem succeeds_bind_iff_left (hf : ∀ a, Succeeds (f a)) : Succeeds (x >>= f) ↔ Succeeds x := by
  rw [succeeds_bind_iff (P := True) fun a => iff_of_true (hf a) trivial, and_true]

theorem succeeds_map_iff {f : α → β} : Succeeds (x.map f) ↔ Succeeds x := by
  cases x with
  | error e => exact ⟨nofun, nofun⟩
  | ok a => exact ⟨fun _ => succeeds_ok a, fun _ => succeeds_ok (f a)⟩

theorem succeeds_map_congr {y : Except ε α'} {f : α → β} {g : α' → β'} (h : Succeeds x ↔ Succeeds y) :
    Succeeds (x.map f) ↔ Succeeds (y.map g) := by
  rw [succeeds_map_iff, succeeds_map_iff, h]

theorem succeeds_guard_iff {c : Prop} [Decidable c] {x : Except ε β} :
    Succeeds (if c then (throw e : Except ε α) >>= f else x) ↔ ¬c ∧ Succeeds x := by
  by_cases h : c
  · rw [if_pos h]
    exact iff_of_false (not_succeeds_error e) fun hx => hx.1 h
  · rw [if_neg h]
    exact (and_iff_right h).symm

theorem succeeds_check_iff {c : Prop} [Decidable c] :
    Succeeds (if c then throw e else x) ↔ ¬c ∧ Succeeds x :=
  succeeds_guard_iff (f := fun a : α => .ok a)

/-- What a computation comes to, its result left out. -/
def outcome (x : Except ε α) : Except ε Unit := x.map fun _ => ()

theorem outcome_bind {n : Except ε Unit} (hx : outcome x = m) (hf : ∀ a, outcome (f a) = n) :
    outcome (x >>= f) = m >>= fun _ => n := by
  subst hx
  cases x with
  | error e => rfl
  | ok a => exact hf a

theorem outcome_bind_ok (hx : outcome x = m) (hf : ∀ a, Succeeds (f a)) :
    outcome (x >>= f) = m := by
  subst hx
  cases x with
  | error e => rfl
  | ok a =>
    obtain ⟨b, hb⟩ := hf a
    exact congrArg outcome hb

theorem outcome_map (x : Except ε α) (f : α → β) : outcome (x.map f) = outcome x := by
  cases x <;> rfl

theorem succeeds_outcome_iff : Succeeds (outcome x) ↔ Succeeds x := succeeds_map_iff

theorem failsBy_outcome_iff : FailsBy P (outcome x) ↔ FailsBy P x := by
  cases x <;> rfl

/-- Computations that both fail or both succeed, then with related results. -/
def Together (R : α → β → Prop) : Except ε α → Except ε β → Prop
  | .error _, .error _ => True
  | .ok a, .ok b => R a b
  | _, _ => False

theorem Together.cases {R : α → β → Prop} {x : Except ε α} {y : Except ε β} (h : Together R x y) :
    (∃ e e', x = .error e ∧ y = .error e') ∨ ∃ a b, x = .ok a ∧ y = .ok b ∧ R a b := by
  cases x with
  | error e =>
    cases y with
    | error e' => exact .inl ⟨e, e', rfl, rfl⟩
    | ok b => exact h.elim
  | ok a =>
    cases y with
    | error e' => exact h.elim
    | ok b => exact .inr ⟨a, b, rfl, rfl, h⟩

theorem Together.bind {f : α → Except ε α'} {g : β → Except ε β'} (h : Together R x y)
    (hfg : ∀ a b, R a b → Together S (f a) (g b)) : Together S (x >>= f) (y >>= g) := by
  obtain ⟨e, e', rfl, rfl⟩ | ⟨a, b, rfl, rfl, hab⟩ := h.cases
  · trivial
  · exact hfg a b hab

theorem together_self {R : α → α → Prop} (h : ∀ a, R a a) (x : Except ε α) : Together R x x := by
  cases x with
  | error e => trivial
  | ok a => exact h a

theorem Together.map {f : α → α'} {g : β → β'} (h : Together R x y)
    (hfg : ∀ a b, R a b → S (f a) (g b)) : Together S (x.map f) (y.map g) :=
  h.bind (f := fun a => .ok (f a)) (g := fun b => .ok (g b)) hfg

theorem together_map_self {R : α' → β' → Prop} {f : α → α'} {g : α → β'} (h : ∀ a, R (f a) (g a))
    (x : Except ε α) : Together R (x.map f) (x.map g) := by
  cases x with
  | error e => trivial
  | ok a => exact h a

theorem Together.trans {R : α → α → Prop} (hR : ∀ a b c, R a b → R b c → R a c) {y z : Except ε α}
    (hxy : Together R x y) (hyz : Together R y z) : Together R x z := by
  obtain ⟨e, e', rfl, rfl⟩ | ⟨a, b, rfl, rfl, hab⟩ := hxy.cases <;>
    obtain ⟨_, _, h, rfl⟩ | ⟨b', c, h, rfl, hbc⟩ := hyz.cases <;> cases h
  · trivial
  · exact hR a b c hab hbc

theorem together_mapM_perm {as bs : List α} (h : as.Perm bs) :
    Together List.Perm (as.mapM f) (bs.mapM f) := by
  induction h with
  | nil => exact .refl []
  | cons a _ ih =>
    rw [List.mapM_cons, List.mapM_cons]
    refine (together_self (fun _ => rfl) (f a)).bind fun b b' hb => ih.bind fun xs ys hxs => ?_
    subst hb
    exact hxs.cons b
  | swap a b as =>
    simp only [List.mapM_cons]
    cases f a <;> cases f b <;> cases as.mapM f <;> first | trivial | exact .swap ..
  | trans _ _ ih ih' => exact ih.trans (fun _ _ _ => .trans) ih'

theorem together_of_succeeds_iff (h : Succeeds x ↔ Succeeds y) :
    Together (fun a b => x = .ok a ∧ y = .ok b) x y := by
  cases x with
  | error e =>
    cases y with
    | error e' => trivial
    | ok b => exact not_succeeds_error e (h.mpr (succeeds_ok b))
  | ok a =>
    cases y with
    | error e' => exact not_succeeds_error e' (h.mp (succeeds_ok a))
    | ok b => exact ⟨rfl, rfl⟩

theorem Together.succeeds_iff (h : Together R x y) : Succeeds x ↔ Succeeds y := by
  obtain ⟨e, e', rfl, rfl⟩ | ⟨a, b, rfl, rfl, -⟩ := h.cases
  · exact iff_of_false (not_succeeds_error e) (not_succeeds_error e')
  · exact iff_of_true (succeeds_ok a) (succeeds_ok b)

end Widgetry
