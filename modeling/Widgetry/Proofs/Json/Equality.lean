import Mathlib
import Widgetry.Context

/-!
# Equality of JSON values

Values without a negative zero are the same exactly when the program takes them for the same: the
comparison of numbers reads a bit pattern whole, but for the sign of zero. That floats compare so is a
lemma that only the whole library brings.
-/

namespace Widgetry

namespace Decimal

/-- Numbers that compare equal are the same, unless one of them is the negative zero. -/
theorem eq_of_float_beq {x y : Float} (h : (x == y) = true) (hx : x ≠ -0.0) (hy : y ≠ -0.0) :
    x = y := by
  obtain ⟨-, -, heq | ⟨-, hzero⟩ | ⟨hzero, -⟩⟩ := Float.beq_iff_ne_nan_and_eq.mp h
  · exact heq
  · exact absurd hzero hy
  · exact absurd hzero hx

end Decimal

namespace Json

mutual

/-- Whether no number in a value is the negative zero. -/
def unsignedZeros : Json → Bool
  | .number (.float x) => x ≠ -0.0
  | .array items => unsignedZerosItems items
  | .object fields => unsignedZerosFields fields
  | _ => true

def unsignedZerosItems : List Json → Bool
  | [] => true
  | a :: as => a.unsignedZeros && unsignedZerosItems as

def unsignedZerosFields : List (String × Json) → Bool
  | [] => true
  | (_, a) :: as => a.unsignedZeros && unsignedZerosFields as

end

theorem Number.eq_of_same {a b : Number} (h : a.same b = true)
    (ha : (Json.number a).unsignedZeros = true) (hb : (Json.number b).unsignedZeros = true) :
    a = b := by
  cases a with
  | integer n =>
    cases b with
    | integer m => exact congrArg Number.integer (by simpa [Number.same] using h)
    | float y => simp [Number.same] at h
  | float x =>
    cases b with
    | integer m => simp [Number.same] at h
    | float y =>
      simp only [unsignedZeros, ne_eq, decide_not, Bool.not_eq_true', decide_eq_false_iff_not]
        at ha hb
      exact congrArg Number.float (Decimal.eq_of_float_beq h ha hb)

mutual

/-- Without negative zeros, the comparison of values is equality. -/
theorem eq_of_same {a b : Json} (h : a.same b = true) (ha : a.unsignedZeros = true)
    (hb : b.unsignedZeros = true) : a = b := by
  cases a with
  | null => cases b <;> simp [same] at h ⊢
  | bool x => cases b <;> simp [same] at h ⊢; exact h
  | string s => cases b <;> simp [same] at h ⊢; exact h
  | number x =>
    cases b with
    | number y => exact congrArg Json.number (Number.eq_of_same (by simpa [same] using h) ha hb)
    | _ => simp [same] at h
  | array as =>
    cases b with
    | array bs =>
      exact congrArg Json.array (eq_of_sameItems (by simpa [same] using h)
        (by simpa [unsignedZeros] using ha) (by simpa [unsignedZeros] using hb))
    | _ => simp [same] at h
  | object as =>
    cases b with
    | object bs =>
      exact congrArg Json.object (eq_of_sameFields (by simpa [same] using h)
        (by simpa [unsignedZeros] using ha) (by simpa [unsignedZeros] using hb))
    | _ => simp [same] at h

theorem eq_of_sameItems {as bs : List Json} (h : sameItems as bs = true)
    (ha : unsignedZerosItems as = true) (hb : unsignedZerosItems bs = true) : as = bs := by
  cases as with
  | nil => cases bs <;> simp [sameItems] at h ⊢
  | cons a as =>
    cases bs with
    | nil => simp [sameItems] at h
    | cons b bs =>
      simp only [sameItems, unsignedZerosItems, Bool.and_eq_true] at h ha hb
      rw [eq_of_same h.1 ha.1 hb.1, eq_of_sameItems h.2 ha.2 hb.2]

theorem eq_of_sameFields {as bs : List (String × Json)} (h : sameFields as bs = true)
    (ha : unsignedZerosFields as = true) (hb : unsignedZerosFields bs = true) : as = bs := by
  cases as with
  | nil => cases bs <;> simp [sameFields] at h ⊢
  | cons a as =>
    cases bs with
    | nil => simp [sameFields] at h
    | cons b bs =>
      obtain ⟨k, a⟩ := a
      obtain ⟨l, b⟩ := b
      simp only [sameFields, unsignedZerosFields, Bool.and_eq_true, beq_iff_eq] at h ha hb
      rw [h.1.1, eq_of_same h.1.2 ha.1 hb.1, eq_of_sameFields h.2 ha.2 hb.2]

end

end Json

end Widgetry
