import Widgetry.Proofs.Expr.Compilation

/-!
# Portability of property values

Elaboration succeeds in one environment just when it does in another one that knows the same names. It
checks types only: a pass that writes nothing does the same in both.
-/

namespace Widgetry

/-- Environments that know the same colors and constants, whatever these are. -/
structure Env.Alike (e f : Env) : Prop where
  color : ∀ s, (e.style.resolveColor? e.platform s).isSome =
    (f.style.resolveColor? f.platform s).isSome
  theme : ∀ s, (e.style.themeColor? e.platform s).isSome =
    (f.style.themeColor? f.platform s).isSome
  alignment : ∀ axis a, (e.style.alignment? e.platform axis a).isSome =
    (f.style.alignment? f.platform axis a).isSome
  textAlign : ∀ a, (e.style.textAlign? e.platform a).isSome =
    (f.style.textAlign? f.platform a).isSome
  fontWeight : ∀ w, (e.style.fontWeight? e.platform w).isSome =
    (f.style.fontWeight? f.platform w).isSome

variable {α β : Type}

theorem both_of_isSome_eq {x : Option α} {y : Option β} (h : x.isSome = y.isSome) :
    (x = none ∧ y = none) ∨ ∃ a b, x = some a ∧ y = some b := by
  cases x with
  | none =>
    cases y with
    | none => exact .inl ⟨rfl, rfl⟩
    | some b => cases h
  | some a =>
    cases y with
    | none => cases h
    | some b => exact .inr ⟨a, b, rfl, rfl⟩

namespace Emitter

/-- Writes nothing, so that only types are left. -/
def types : Emitter Unit Unit where
  literal _ s := ((), s)
  read _ _ _ s := ((), s)
  presence _ s := ((), s)
  operator _ _ _ s := ((), s)
  coerce _ _ _ s := ((), s)

theorem writes_types : types.Writes (fun _ _ => ()) (fun s _ => s) where
  literal _ _ := rfl
  read _ _ _ _ := rfl
  presence _ _ := rfl
  operator _ _ _ _ := rfl
  coerce _ _ _ := rfl
  out_after _ _ := rfl
  after_nil _ := rfl
  after_after _ _ _ := rfl
  after_perm _ _ _ _ := rfl

section

variable {e f : Env} (h : e.Alike f)

include h

theorem types_writeLiteral (want : Option ValueType) (place : Location) (l : Literal) :
    types.writeLiteral e want place l = types.writeLiteral f want place l := by
  cases l with
  | string s =>
    simp only [writeLiteral]
    obtain ⟨hx, hy⟩ | ⟨c, d, hx, hy⟩ := both_of_isSome_eq (h.color s)
    · rw [hx, hy]
    · rw [hx, hy]
      rfl
  | _ => rfl

theorem types_writeRead (want : Option ValueType) (nullable : Bool) (place : Location) (b : Binding)
    (fallback : Option Literal) :
    types.writeRead e want nullable place b fallback =
      types.writeRead f want nullable place b fallback := by
  simp only [writeRead]
  congr 1
  cases fallback with
  | none => rfl
  | some l =>
    cases l with
    | string s =>
      simp only [Elaboration.default?]
      by_cases hwant : want = some .color
      · obtain ⟨hx, hy⟩ | ⟨c, d, hx, hy⟩ := both_of_isSome_eq (h.color s)
        · rw [hx, hy]
        · simp only [if_pos hwant, hx, hy]
          rfl
      · simp only [if_neg hwant]
    | _ => rfl

theorem types_writeThemeColor (args : List Expr) :
    types.writeThemeColor e args = types.writeThemeColor f args := by
  unfold writeThemeColor
  split
  · rename_i token
    obtain ⟨hx, hy⟩ | ⟨c, d, hx, hy⟩ := both_of_isSome_eq (h.theme token)
    · rw [hx, hy]
    · rw [hx, hy]
      rfl
  · rfl
  · rfl

mutual

theorem types_expr (want : Option ValueType) (x : Expr) : types.expr e want x = types.expr f want x := by
  cases x with
  | literal place l =>
    rw [expr, expr]
    exact types_writeLiteral h want place l
  | get place b fallback =>
    rw [expr, expr]
    exact types_writeRead h want false place b fallback
  | has place b => rw [expr, expr]
  | op place op args =>
    have hoperands := fun modeAt => types_operands modeAt 0 args
    rw [expr, expr, types_writeThemeColor h args]
    simp only [hoperands]

theorem types_operands (modeAt : Nat → Elaboration.Mode) (i : Nat) (xs : List Expr) :
    types.operands e modeAt i xs = types.operands f modeAt i xs := by
  cases xs with
  | nil => rw [operands, operands]
  | cons x xs =>
    have hexpr := fun want => types_expr want x
    rw [operands, operands, types_operands modeAt (i + 1) xs]
    simp only [hexpr, types_writeRead h]

end

theorem types_property (expected : ValueType) (place : Location) (v : PropertyValue) :
    types.property e expected place v = types.property f expected place v := by
  simp only [property, types_writeLiteral h, types_writeRead h, types_expr h]

end

end Emitter

theorem Elaboration.succeeds_property_iff {e f : Env} (h : e.Alike f) (type : ValueType)
    (place : Location) (v : PropertyValue) :
    Succeeds (property e type place v) ↔ Succeeds (property f type place v) := by
  have he := Emitter.writes_types.run_property () e type place v
  have hf := Emitter.writes_types.run_property () f type place v
  rw [Emitter.types_property h] at he
  have hsame := congrArg Succeeds (he.symm.trans hf)
  exact succeeds_map_iff.symm.trans (hsame.to_iff.trans succeeds_map_iff)

end Widgetry
