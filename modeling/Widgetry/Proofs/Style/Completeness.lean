import Widgetry.Proofs.Expr.Portability
import Widgetry.Style.Reader

/-!
# Complete styles

A style that is read or built in has a constant for every keyword on every platform. With the same
tokens in all palettes, whatever one platform can resolve every other can.
-/

namespace Widgetry.Style

structure Complete (s : Style) : Prop where
  alignment : ∀ p axis a, (s.alignment? p axis a).isSome = true
  textAlign : ∀ p a, (s.textAlign? p a).isSome = true
  fontWeight : ∀ p w, (s.fontWeight? p w).isSome = true

theorem complete_builtin : builtin.Complete where
  alignment p axis a := by cases p <;> cases axis <;> cases a <;> rfl
  textAlign p a := by cases p <;> cases a <;> rfl
  fontWeight p w := by cases p <;> cases w <;> rfl

theorem then_eq_ok_iff {m n : Except Error Unit} :
    (m >>= fun _ => n) = .ok () ↔ m = .ok () ∧ n = .ok () :=
  bind_eq_ok_iff.trans ⟨fun ⟨_, hm, hn⟩ => ⟨hm, hn⟩, fun h => ⟨(), h⟩⟩

theorem forM_eq_ok_iff {α : Type} {f : α → Except Error Unit} {as : List α} :
    as.forM f = .ok () ↔ ∀ a ∈ as, f a = .ok () := by
  induction as with
  | nil => exact iff_of_true rfl nofun
  | cons a as ih =>
    rw [List.forall_mem_cons, ← ih]
    exact then_eq_ok_iff

theorem require_eq_ok_iff {holds : Bool} {cause : ConfigCause} :
    require holds cause = .ok () ↔ holds = true := by
  cases holds with
  | false => exact ⟨nofun, nofun⟩
  | true => exact iff_of_true rfl rfl

variable {s : Style}

theorem checkPlatform_eq_ok_iff {p : Platform} : s.checkPlatform p = .ok () ↔
    (∀ axis a, (s.alignment? p axis a).isSome = true) ∧ (∀ a, (s.textAlign? p a).isSome = true) ∧
      ∀ w, (s.fontWeight? p w).isSome = true := by
  have haxis : ∀ axis, axis ∈ Axis.all := fun axis => by cases axis <;> decide
  have halignment : ∀ a, a ∈ Alignment.all := fun a => by cases a <;> decide
  have hweight : ∀ w, w ∈ FontWeight.all := fun w => by cases w <;> decide
  simp only [checkPlatform, then_eq_ok_iff, forM_eq_ok_iff, require_eq_ok_iff, haxis, halignment,
    hweight, true_imp_iff]

theorem check_eq_ok_iff : s.check = .ok () ↔ s.Complete := by
  have hall : ∀ p, p ∈ Platform.all := fun p => by cases p <;> decide
  simp only [check, forM_eq_ok_iff, checkPlatform_eq_ok_iff, hall, true_imp_iff, forall_and]
  exact ⟨fun h => ⟨h.1, h.2.1, h.2.2⟩, fun h => ⟨h.alignment, h.textAlign, h.fontWeight⟩⟩

theorem complete_of_parse {text : String} (h : parse text = .ok s) : s.Complete := by
  unfold parse at h
  split at h
  · cases h
  · obtain ⟨bottom, -, h⟩ := exists_of_bind_eq_ok h
    obtain ⟨palettes, -, h⟩ := exists_of_bind_eq_ok h
    obtain ⟨_, hcheck, h⟩ := exists_of_bind_eq_ok h
    cases h
    exact check_eq_ok_iff.mp hcheck

/-- Where palettes have the same tokens all platforms of a complete style know the same names. -/
theorem Complete.alike (hs : s.Complete)
    (htokens : ∀ p q token, (s.palette p).contains token = (s.palette q).contains token)
    (p q : Platform) (a b : Size) : Env.Alike ⟨s, p, a⟩ ⟨s, q, b⟩ where
  color text := by
    have htoken := htokens p q (Palette.token text)
    unfold Table.contains at htoken
    simp only [resolveColor?, Palette.resolve?, Option.isSome_or, htoken]
  theme token := htokens p q (Palette.token token)
  alignment axis a := (hs.alignment p axis a).trans (hs.alignment q axis a).symm
  textAlign a := (hs.textAlign p a).trans (hs.textAlign q a).symm
  fontWeight w := (hs.fontWeight p w).trans (hs.fontWeight q w).symm

end Widgetry.Style
