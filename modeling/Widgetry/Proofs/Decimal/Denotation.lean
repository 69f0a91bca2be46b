import Mathlib
import Widgetry.Proofs.Sizes
import Widgetry.Proofs.Source.Literal

/-!
# What literals stand for

A decimal literal stands for the float whose rounding interval holds its exact value. The intervals of
two floats never meet, so it stands for one float at most. The shortest digits of a float lie in its
interval, so the literal that is written for a length of a size stands for that length.

The whole library is imported for its lemmas on unpacked floats, which no part of it brings alone.
-/

namespace Widgetry.Decimal

open List

open Float.Model

variable {m m' n d : Nat} {q q' : Int} {x y : Float} {negative : Bool}

/-! ### Bit patterns -/

/-- Mantissa and exponent as the bits of a finite number have them. -/
structure Canonical (m : Nat) (q : Int) : Prop where
  lt : m < 2 ^ 53
  least : -1074 ≤ q
  normal : 2 ^ 52 ≤ m ∨ q = -1074

theorem canonical_of_ofFloat (h : Binary.ofFloat x = .finite negative m q) : Canonical m q := by
  simp only [Binary.ofFloat, Binary.ofBits, Nat.one_shiftLeft] at h
  generalize x.toBits.toNat >>> 52 % 2048 = field at h
  split_ifs at h <;> obtain ⟨-, rfl, rfl⟩ := Binary.finite.inj h
  · exact ⟨by omega, le_rfl, .inr rfl⟩
  · exact ⟨by omega, by simp only [Int.ofNat_eq_natCast]; omega, .inl (by omega)⟩

theorem eq_of_ofFloat (hx : Binary.ofFloat x = .finite negative m q)
    (hy : Binary.ofFloat y = .finite negative m q) : x = y := by
  have hfields (bits : UInt64) : bits.toNat = 2 ^ 63 * (bits.toNat >>> 63 % 2) +
      2 ^ 52 * (bits.toNat >>> 52 % 2048) + bits.toNat % 2 ^ 52 := by
    have hlt := bits.toNat_lt
    rw [Nat.shiftRight_eq_div_pow, Nat.shiftRight_eq_div_pow]
    omega
  have hbits : x.toBits.toNat = y.toBits.toNat := by
    rw [hfields x.toBits, hfields y.toBits]
    simp only [Binary.ofFloat, Binary.ofBits, Nat.one_shiftLeft] at hx hy
    split_ifs at hx hy <;> simp only [Binary.finite.injEq, Int.ofNat_eq_natCast] at hx hy <;>
      have hsign := hx.1.trans hy.1.symm <;> rw [Bool.eq_iff_iff, beq_iff_eq, beq_iff_eq] at hsign <;>
      omega
  exact Float.toBits_inj.mp (UInt64.toNat_inj.mp hbits)

variable {hm : 0 < m}

theorem toNat_unpackMantissa (b : BitVec Format.binary64.numBits) :
    (UnpackedFloat.unpackMantissa b).toNat = b.toNat % 2 ^ 52 := by
  simp [UnpackedFloat.unpackMantissa]

theorem toNat_unpackExponent (b : BitVec Format.binary64.numBits) :
    (UnpackedFloat.unpackExponent b).toNat = b.toNat / 2 ^ 52 % 2 ^ 11 := by
  simp [UnpackedFloat.unpackExponent, Nat.shiftRight_eq_div_pow]

theorem toNat_unpackSign (b : BitVec Format.binary64.numBits) :
    (UnpackedFloat.unpackSign b).toNat = b.toNat / 2 ^ 63 % 2 := by
  simp [UnpackedFloat.unpackSign, Nat.shiftRight_eq_div_pow]

theorem toNat_append_eq_add {m n : Nat} (x : BitVec m) (y : BitVec n) :
    (x ++ y).toNat = x.toNat * 2 ^ n + y.toNat := by
  rw [BitVec.toNat_append, ← Nat.shiftLeft_add_eq_or_of_lt y.isLt, Nat.shiftLeft_eq]

theorem ofFloat_of_unpack (h : x.toModel.unpack = .finite .positive m q hm) :
    Binary.ofFloat x = .finite false m q := by
  have hpositive (v : BitVec 1) (hv : UnpackedFloat.Sign.ofBitVec v = .positive) : v.toNat = 0 := by
    rcases BitVec.eq_zero_or_eq_one v with rfl | rfl
    · rfl
    · cases hv
  let bits : BitVec Format.binary64.numBits := x.toModel.toBits.toBitVec
  have hbits : Binary.ofFloat x = Binary.ofBits bits.toNat := rfl
  change UnpackedFloat.unpack Format.binary64 bits = _ at h
  simp only [UnpackedFloat.unpack] at h
  simp only [hbits, Binary.ofBits, Nat.one_shiftLeft, Nat.shiftRight_eq_div_pow]
  rw [← toNat_unpackMantissa, ← toNat_unpackSign, show 2048 = 2 ^ 11 from rfl, ← toNat_unpackExponent]
  split_ifs at h with hmax _ hzero <;>
    obtain ⟨hs, rfl, rfl⟩ := UnpackedFloat.finite.inj h <;> rw [hpositive _ hs]
  · rw [hzero]
    rfl
  · have hne : (UnpackedFloat.unpackExponent bits).toNat ≠ 2047 := fun heq =>
      hmax (BitVec.eq_of_toNat_eq (by simpa using heq))
    have hne' : (UnpackedFloat.unpackExponent bits).toNat ≠ 0 := fun heq =>
      hzero (BitVec.eq_of_toNat_eq (by simpa using heq))
    rw [if_neg hne, if_neg hne', toNat_append_eq_add]
    rfl

/-! ### Rounding intervals -/

/-- How far, in quarter steps, the interval of a number reaches down. -/
def reach (m : Nat) (q : Int) : Nat := if m = 1 <<< 52 ∧ q ≠ -1074 then 1 else 2

theorem ofBinary_eq (m : Nat) (q : Int) : ∃ a c : Nat, q = a - c ∧ (a = 0 ∨ c = 0) ∧
    Interval.ofBinary m q =
      ⟨4 * m * 2 ^ a, (4 * m - reach m q) * 2 ^ a, (4 * m + 2) * 2 ^ a, 4 * 2 ^ c, m % 2 == 0⟩ := by
  cases q with
  | ofNat k =>
    refine ⟨k, 0, by simp, .inr rfl, ?_⟩
    simp only [Interval.ofBinary, reach, Nat.shiftLeft_eq, Nat.pow_zero, Nat.mul_one]
  | negSucc k =>
    refine ⟨0, k + 1, by omega, .inl rfl, ?_⟩
    simp only [Interval.ofBinary, reach, Nat.shiftLeft_eq, Nat.pow_zero, Nat.mul_one]

variable {i : Interval}

theorem contains_iff : i.contains n d = true ↔ i.low * d ≤ n * i.unit ∧ n * i.unit ≤ i.high * d ∧
    (i.closed = false → i.low * d < n * i.unit ∧ n * i.unit < i.high * d) := by
  unfold Interval.contains
  cases i.closed
  · simp only [Bool.false_eq_true, if_false, Bool.and_eq_true, decide_eq_true_eq]
    exact ⟨fun h => ⟨h.1.le, h.2.le, fun _ => h⟩, fun h => h.2.2 trivial⟩
  · simp

theorem contains_of_lt (hlow : i.low * d < n * i.unit) (hhigh : n * i.unit < i.high * d) :
    i.contains n d = true :=
  contains_iff.mpr ⟨hlow.le, hhigh.le, fun _ => ⟨hlow, hhigh⟩⟩

theorem contains_mul {c : Nat} (hc : 0 < c) (h : i.contains n d = true) :
    i.contains (n * c) (d * c) = true := by
  have hscale (a b : Nat) : a * (b * c) = a * b * c ∧ b * c * a = b * a * c := by constructor <;> ring
  rw [contains_iff] at h ⊢
  simp only [hscale, Nat.mul_le_mul_right_iff hc, Nat.mul_lt_mul_right hc]
  exact h

/-- What a point of an interval satisfies over a denominator that many intervals share. -/
theorem bounds_of_contains {k : Nat} (hq : -(k : Int) ≤ q)
    (h : (Interval.ofBinary m q).contains n d = true) :
    (4 * m - reach m q) * (2 ^ (q + k).toNat * d) ≤ n * 2 ^ (k + 2) ∧
      n * 2 ^ (k + 2) ≤ (4 * m + 2) * (2 ^ (q + k).toNat * d) ∧
      (m % 2 = 1 → (4 * m - reach m q) * (2 ^ (q + k).toNat * d) < n * 2 ^ (k + 2) ∧
        n * 2 ^ (k + 2) < (4 * m + 2) * (2 ^ (q + k).toNat * d)) := by
  obtain ⟨a, c, hac, hone, hi⟩ := ofBinary_eq m q
  have hexponent : (q + k).toNat = a + (k - c) := by omega
  have hside (e : Nat) : e * (2 ^ (q + k).toNat * d) = e * 2 ^ a * d * 2 ^ (k - c) := by
    rw [hexponent, Nat.pow_add]
    ring
  have hpoint : n * 2 ^ (k + 2) = n * (4 * 2 ^ c) * 2 ^ (k - c) := by
    rw [show k + 2 = 2 + c + (k - c) by omega, Nat.pow_add, Nat.pow_add]
    ring
  have hpos : 0 < 2 ^ (k - c) := by positivity
  rw [hi, contains_iff] at h
  simp only [hside, hpoint, Nat.mul_le_mul_right_iff hpos, Nat.mul_lt_mul_right hpos]
  exact ⟨h.1, h.2.1, fun hodd => h.2.2 (by simp [hodd])⟩

/-- The interval of a smaller number ends below that of a larger one, or where it starts; then one of
the two is open. -/
theorem high_le_low {j : Nat} (hm : Canonical m q) (hm' : Canonical m' q') (hj : q' = q + j)
    (hlt : 0 < j ∨ m < m') : 4 * m + 2 < (4 * m' - reach m' q') * 2 ^ j ∨
      4 * m + 2 = (4 * m' - reach m' q') * 2 ^ j ∧ (m % 2 = 1 ∨ m' % 2 = 1) := by
  have hreach : reach m' q' = 2 ∧ (m' ≠ 2 ^ 52 ∨ q' = -1074) ∨
      reach m' q' = 1 ∧ m' = 2 ^ 52 ∧ q' ≠ -1074 := by
    simp only [reach, Nat.one_shiftLeft]
    split_ifs <;> omega
  obtain ⟨hbound, hleast, hnormal⟩ := hm
  obtain ⟨-, hleast', hnormal'⟩ := hm'
  cases j with
  | zero => omega
  | succ j =>
    have htwo : 2 ≤ 2 ^ (j + 1) := Nat.le_self_pow (by omega) 2
    have hdouble := Nat.mul_le_mul_left (4 * m' - reach m' q') htwo
    omega

theorem not_contains_of_lt (hm : Canonical m q) (hm' : Canonical m' q') (hd : 0 < d)
    (hlt : q < q' ∨ q = q' ∧ m < m') (h : (Interval.ofBinary m q).contains n d = true) :
    (Interval.ofBinary m' q').contains n d = false := by
  rw [← Bool.not_eq_true]
  intro h'
  obtain ⟨-, hhigh, hopen⟩ := bounds_of_contains (k := 1074) hm.least h
  obtain ⟨hlow, -, hopen'⟩ := bounds_of_contains (k := 1074) hm'.least h'
  obtain ⟨j, hj⟩ : ∃ j : Nat, q' = q + j := ⟨(q' - q).toNat, by omega⟩
  have hpower : 2 ^ (q' + (1074 : Nat)).toNat = 2 ^ j * 2 ^ (q + (1074 : Nat)).toNat := by
    have hleast := hm.least
    rw [← Nat.pow_add]
    congr 1
    omega
  have hpos : 0 < 2 ^ (q + (1074 : Nat)).toNat * d := Nat.mul_pos (Nat.two_pow_pos _) hd
  rw [hpower, Nat.mul_assoc, ← Nat.mul_assoc (4 * m' - reach m' q')] at hlow hopen'
  rcases high_le_low hm hm' hj (by omega) with hstep | ⟨hstep, hodd⟩
  · exact absurd (hlow.trans hhigh) (Nat.mul_lt_mul_of_pos_right hstep hpos).not_ge
  · rw [← hstep] at hlow hopen'
    rcases hodd with hodd | hodd
    · exact absurd hlow (hopen hodd).2.not_ge
    · exact absurd hhigh (hopen' hodd).1.not_ge

theorem eq_of_contains (hm : Canonical m q) (hm' : Canonical m' q') (hd : 0 < d)
    (h : (Interval.ofBinary m q).contains n d = true)
    (h' : (Interval.ofBinary m' q').contains n d = true) : m = m' ∧ q = q' := by
  have hnot : ¬(q < q' ∨ q = q' ∧ m < m') := fun hlt =>
    Bool.eq_false_iff.mp (not_contains_of_lt hm hm' hd hlt h) h'
  have hnot' : ¬(q' < q ∨ q' = q ∧ m' < m) := fun hlt =>
    Bool.eq_false_iff.mp (not_contains_of_lt hm' hm hd hlt h') h
  omega

/-! ### The search for digits -/

def step : Int → Nat × Nat
  | .ofNat k => (10 ^ k, 1)
  | .negSucc k => (1, 10 ^ (k + 1))

variable {tie : Tie} {e : Int}

theorem step_pos (e : Int) : 0 < (step e).1 ∧ 0 < (step e).2 := by
  cases e <;> simp [step]

/-- The multiple of a step below the value of an interval. -/
def below (i : Interval) (e : Int) : Nat := i.value * (step e).2 / (i.unit * (step e).1)

/-- A grid gives the multiple below the value or the next one, and only one that is in the interval; it
gives none only if the next one is not. -/
theorem onGrid_cases (tie : Tie) (i : Interval) (e : Int) :
    (∃ n, i.onGrid tie e = some n ∧ i.contains (n * (step e).1) (step e).2 = true) ∨
      i.onGrid tie e = none ∧ i.contains ((below i e + 1) * (step e).1) (step e).2 = false := by
  unfold Interval.onGrid
  cases tie <;> cases e <;> dsimp only [below, step] <;> split <;> rename_i hlow hhigh <;>
    (try split_ifs) <;>
    first
    | exact .inr ⟨rfl, hhigh⟩
    | exact .inl ⟨_, rfl, hhigh⟩
    | exact .inl ⟨_, rfl, (Bool.and_eq_true_iff.mp hlow).1⟩

theorem onGrid_ne_none {g : Nat} (hunit : 0 < i.unit) (hlow : i.low ≤ i.value)
    (hhigh : i.high = i.value + g) (hstep : (step e).1 * i.unit < g * (step e).2) :
    i.onGrid tie e ≠ none := by
  intro hnone
  obtain ⟨n, hsome, -⟩ | ⟨-, hnot⟩ := onGrid_cases tie i e
  · rw [hnone] at hsome
    cases hsome
  · have hpos : 0 < i.unit * (step e).1 := Nat.mul_pos hunit (step_pos e).1
    have hlt := Nat.lt_div_mul_add hpos (a := i.value * (step e).2)
    have hle := Nat.div_mul_le_self (i.value * (step e).2) (i.unit * (step e).1)
    have hnext : (below i e + 1) * (step e).1 * i.unit =
        below i e * (i.unit * (step e).1) + i.unit * (step e).1 := by ring
    refine absurd (contains_of_lt ?_ ?_) (Bool.eq_false_iff.mp hnot)
    · rw [hnext]
      exact (Nat.mul_le_mul_right _ hlow).trans_lt hlt
    · rw [hnext, hhigh, Nat.add_mul, Nat.mul_comm i.unit]
      exact Nat.add_lt_add_of_le_of_lt (Nat.mul_comm i.unit _ ▸ hle) hstep

theorem contains_search {steps j : Nat} (hj : j < steps) (h : i.onGrid tie (e - j) ≠ none) :
    i.contains ((i.search tie steps e).significand * (step (i.search tie steps e).exponent).1)
      (step (i.search tie steps e).exponent).2 = true := by
  induction steps generalizing e j with
  | zero => omega
  | succ steps ih =>
    rw [Interval.search]
    obtain ⟨n, hsome, hn⟩ | ⟨hnone, -⟩ := onGrid_cases tie i e
    · rw [hsome]
      exact hn
    · rw [hnone]
      cases j with
      | zero => exact absurd (by simpa using hnone) h
      | succ j =>
        refine ih (j := j) (by omega) ?_
        rwa [show e - 1 - (j : Int) = e - (j + 1 : Nat) by omega]

theorem digitCount_bounds (hn : 0 < n) : n < 10 ^ digitCount n ∧ 10 ^ digitCount n ≤ 10 * n := by
  have hiff {k : Nat} (hk : 0 < k) := Nat.length_toDigits_le_iff (b := 10) (n := n) (by decide) hk
  have hpos : 0 < (Nat.toDigits 10 n).length := Nat.length_toDigits_pos
  rw [digitCount, if_neg hn.ne']
  refine ⟨(hiff hpos).mp le_rfl, ?_⟩
  obtain hone | hmore : (Nat.toDigits 10 n).length = 1 ∨ 1 < (Nat.toDigits 10 n).length := by omega
  · rw [hone]
    omega
  · have hle := (hiff (k := (Nat.toDigits 10 n).length - 1) (by omega)).not.mp (by omega)
    rw [show (Nat.toDigits 10 n).length = (Nat.toDigits 10 n).length - 1 + 1 by omega, Nat.pow_succ]
    omega

theorem step_mul {a b : Nat} (he : e = a - b) : (step e).1 * 10 ^ b = (step e).2 * 10 ^ a := by
  cases e with
  | ofNat k =>
    rw [show a = k + b by simp only [Int.ofNat_eq_natCast] at he; omega, Nat.pow_add, step, Nat.one_mul]
  | negSucc k => rw [show b = k + 1 + a by omega, Nat.pow_add, step, Nat.one_mul]

/-- The shortest digits of a number lie in its interval: a grid of steps below half the distance to the
next number is tried. -/
theorem contains_shortest (tie : Tie) (hm : 0 < m) (hlt : m < 2 ^ 53) (q : Int) :
    (Interval.ofBinary m q).contains
      ((shortest tie m q).significand * (step (shortest tie m q).exponent).1)
      (step (shortest tie m q).exponent).2 = true := by
  obtain ⟨a, c, -, -, hi⟩ := ofBinary_eq m q
  unfold shortest
  rw [hi]
  have hmantissa : 20 * m < 10 ^ 18 := by omega
  have hunit : 0 < 4 * 2 ^ c := by positivity
  have hgap : 0 < 2 * 2 ^ a := by positivity
  have hvalue : 0 < 4 * m * 2 ^ a := by positivity
  refine contains_search (j := 19) (by decide) (onGrid_ne_none (g := 2 * 2 ^ a) hunit ?_ ?_ ?_)
  · exact Nat.mul_le_mul_right _ (Nat.sub_le _ _)
  · ring
  · have hstep := step_mul (e := magnitude (4 * m * 2 ^ a) (4 * 2 ^ c) - (19 : Nat))
      (a := digitCount (4 * m * 2 ^ a)) (b := digitCount (4 * 2 ^ c) + 18)
      (by simp only [magnitude, Int.ofNat_eq_natCast]; omega)
    have hpos := (step_pos (magnitude (4 * m * 2 ^ a) (4 * 2 ^ c) - (19 : Nat))).2
    generalize step (magnitude (4 * m * 2 ^ a) (4 * 2 ^ c) - (19 : Nat)) = s at hstep hpos
    refine Nat.lt_of_mul_lt_mul_right (a := 10 ^ 18) ?_
    calc s.1 * (4 * 2 ^ c) * 10 ^ 18
      _ ≤ s.1 * 10 ^ digitCount (4 * 2 ^ c) * 10 ^ 18 :=
          Nat.mul_le_mul_right _ (Nat.mul_le_mul_left _ (digitCount_bounds hunit).1.le)
      _ = s.2 * 10 ^ digitCount (4 * m * 2 ^ a) := by rw [Nat.mul_assoc, ← Nat.pow_add, hstep]
      _ ≤ s.2 * (10 * (4 * m * 2 ^ a)) := Nat.mul_le_mul_left _ (digitCount_bounds hvalue).2
      _ = 2 * 2 ^ a * s.2 * (20 * m) := by ring
      _ < 2 * 2 ^ a * s.2 * 10 ^ 18 := Nat.mul_lt_mul_of_pos_left hmantissa (Nat.mul_pos hgap hpos)

/-! ### Literals -/

/-- A text of digits around a point. -/
structure Spelled (text : String) (whole fraction : List Char) : Prop where
  text_eq : text.toList = whole ++ '.' :: fraction
  ne_nil : whole ≠ []
  whole : ∀ c ∈ whole, c.isDigit = true
  fraction : ∀ c ∈ fraction, c.isDigit = true

/-- Whether a literal stands for a float. -/
def Denotes (text : String) (x : Float) : Prop :=
  ∃ whole fraction m q, Spelled text whole fraction ∧ Binary.ofFloat x = .finite false m q ∧
    (Interval.ofBinary m q).contains (valueOf 0 (whole ++ fraction)) (10 ^ fraction.length) = true

variable {text : String} {whole fraction : List Char}

theorem Spelled.takeWhile (h : Spelled text whole fraction) :
    text.toList.takeWhile Char.isDigit = whole := by
  rw [h.text_eq, takeWhile_append_of_pos h.whole, takeWhile_cons_of_neg (by decide),
    append_nil]

theorem Spelled.dropWhile (h : Spelled text whole fraction) :
    text.toList.dropWhile Char.isDigit = '.' :: fraction := by
  rw [h.text_eq, dropWhile_append_of_pos h.whole, dropWhile_cons_of_neg (by decide)]

theorem Denotes.unique (hx : Denotes text x) (hy : Denotes text y) : x = y := by
  obtain ⟨whole, fraction, m, q, htext, hm, hin⟩ := hx
  obtain ⟨whole', fraction', m', q', htext', hm', hin'⟩ := hy
  obtain rfl : whole = whole' := htext.takeWhile.symm.trans htext'.takeWhile
  obtain ⟨-, rfl⟩ := List.cons.inj (htext.dropWhile.symm.trans htext'.dropWhile)
  obtain ⟨rfl, rfl⟩ := eq_of_contains (canonical_of_ofFloat hm) (canonical_of_ofFloat hm')
    (by positivity) hin hin'
  exact eq_of_ofFloat hm hm'

/-- Such a text stands in no parentheses. -/
theorem Spelled.group (h : Spelled text whole fraction) : Source.group text = text := by
  have hsign : splitSign text.toList = (false, text.toList) := by
    obtain ⟨c, cs, rfl⟩ := exists_cons_of_ne_nil h.ne_nil
    have hdigit : c.isDigit = true := h.whole c mem_cons_self
    rw [h.text_eq, cons_append]
    unfold splitSign
    split
    · rename_i heq
      rw [(List.cons.inj heq).1] at hdigit
      cases hdigit
    · rename_i heq
      rw [(List.cons.inj heq).1] at hdigit
      cases hdigit
    · rfl
  have hnumber : (readUnsigned text.toList).isSome = true := by
    simp only [readUnsigned, h.takeWhile, h.dropWhile, dropWhile_eq_nil_iff.mpr h.fraction,
      isEmpty_eq_false_iff.mpr h.ne_nil]
    rfl
  have hparse : (parse? text).isSome = true := by
    simp only [parse?, hsign, Option.isSome_map, Option.isSome_or, hnumber, Bool.or_true]
  rw [Source.group, hparse, Bool.true_or, if_pos rfl]

theorem valueOf_append (start : Nat) (cs ds : List Char) :
    valueOf start (cs ++ ds) = valueOf (valueOf start cs) ds := foldl_append

theorem valueOf_toString (n : Nat) : valueOf 0 (toString n).toList = n := by
  rw [Nat.toString_eq_ofList_toDigits, String.toList_ofList]
  exact Nat.ofDigitChars_ten_toDigits

theorem valueOf_zeros (start k : Nat) : valueOf start (zeros k).toList = start * 10 ^ k := by
  rw [zeros, String.toList_ofList, Nat.mul_comm]
  exact Nat.ofDigitChars_replicate_zero

theorem toString_ne_nil (n : Nat) : (toString n).toList ≠ [] := by
  rw [Nat.toString_eq_ofList_toDigits, String.toList_ofList]
  exact Nat.toDigits_ne_nil

theorem spelled_whole (n k : Nat) :
    Spelled (toString n ++ zeros k ++ ".0") (toString n ++ zeros k).toList ['0'] := by
  refine ⟨String.toList_append, ?_, fun c hc => ?_, by simp⟩
  · rw [String.toList_append]
    exact append_ne_nil_of_left_ne_nil (toString_ne_nil n) _
  · rw [String.toList_append, mem_append] at hc
    exact hc.elim Source.isDigit_of_mem_toString Source.isDigit_of_mem_zeros

theorem valueOf_whole (n k : Nat) :
    valueOf 0 ((toString n ++ zeros k).toList ++ ['0']) = n * 10 ^ k * 10 := by
  rw [valueOf_append, String.toList_append, valueOf_append, valueOf_toString, valueOf_zeros]
  exact Nat.mul_comm _ _

theorem spelled_placed (n k : Nat) : ∃ whole fraction,
    Spelled (placePoint false (toString n) (.negSucc k)) whole fraction ∧
      valueOf 0 (whole ++ fraction) = n ∧ fraction.length = k + 1 := by
  have hdigits : ∀ c ∈ (toString n).toList, c.isDigit = true := fun _ => Source.isDigit_of_mem_toString
  simp only [placePoint, ← String.length_toList]
  generalize hcs : (toString n).toList = cs at hdigits
  split
  · rename_i hlt
    refine ⟨cs.take (cs.length - (k + 1)), cs.drop (cs.length - (k + 1)), ⟨?_, ?_, ?_, ?_⟩, ?_, ?_⟩
    · simp only [String.toList_append, String.toList_ofList, append_assoc]
      rfl
    · rw [ne_eq, take_eq_nil_iff]
      rintro (h | rfl)
      · omega
      · cases hlt
    · exact fun c hc => hdigits c (mem_of_mem_take hc)
    · exact fun c hc => hdigits c (mem_of_mem_drop hc)
    · rw [take_append_drop, ← hcs, valueOf_toString]
    · rw [length_drop]
      omega
  · rename_i hge
    refine ⟨['0'], (zeros (k + 1 - cs.length)).toList ++ cs, ⟨?_, by simp, by simp, ?_⟩, ?_, ?_⟩
    · rw [String.toList_append, String.toList_append, hcs, append_assoc]
      rfl
    · intro c hc
      exact (mem_append.mp hc).elim Source.isDigit_of_mem_zeros (hdigits c)
    · rw [← append_assoc, valueOf_append, valueOf_append, valueOf_zeros]
      change valueOf (0 * _) cs = n
      rw [Nat.zero_mul, ← hcs, valueOf_toString]
    · rw [length_append, zeros, String.toList_ofList, length_replicate]
      omega

theorem unpack_of_measures (h : SizeClass.Measures x) :
    ∃ m q hm, x.toModel.unpack = .finite .positive m q hm := by
  obtain ⟨hfinite, hpos⟩ := h
  have hzero : (0.0 : Float).toModel.toBits = 0 := by decide +kernel
  change x.toModel.unpack.isFinite = true at hfinite
  replace hpos : ¬x.toModel.unpack.le
      (UnpackedFloat.unpack Format.binary64 (0.0 : Float).toModel.toBits.toBitVec) = true :=
    fun hle => hpos (decide_eq_true hle)
  rw [hzero] at hpos
  cases hu : x.toModel.unpack with
  | notANumber | infinity s =>
    rw [hu] at hfinite
    cases hfinite
  | zero s =>
    rw [hu] at hpos
    exact absurd rfl hpos
  | finite s m q hm =>
    cases s with
    | negative =>
      rw [hu] at hpos
      exact absurd rfl hpos
    | positive => exact ⟨m, q, hm, rfl⟩

theorem abs_of_unpack (h : x.toModel.unpack = .finite .positive m q hm) : x.abs = x := by
  have habs : x.toModel.unpack.abs = x.toModel.unpack := by
    rw [h]
    rfl
  have hbits : x.abs.toBits = x.toBits := by
    refine UInt64.toBitVec_inj.mp ?_
    change UnpackedFloat.pack Format.binary64 x.toModel.unpack.abs = _
    rw [habs]
    exact UnpackedFloat.pack_unpack_of_valid x.toModel.valid
  exact Float.toBits_inj.mp hbits

theorem exponent_le_of_lt (h : x.toModel.unpack = .finite .positive m q hm) (hlt : x < 1e15) :
    q ≤ -3 := by
  have hbits : (1e15 : Float).toModel.toBits = 0x430C6BF526340000 := by decide +kernel
  replace hlt : x.toModel.unpack.lt
      (UnpackedFloat.unpack Format.binary64 (1e15 : Float).toModel.toBits.toBitVec) = true :=
    of_decide_eq_true hlt
  rw [hbits, h] at hlt
  have hcompare : (compare q (-3)).then (compare m 8000000000000000) = .lt :=
    Option.some.inj (eq_of_beq hlt)
  rw [Ordering.then_eq_lt, compare_lt_iff_lt, compare_eq_iff_eq] at hcompare
  omega

theorem reach_pos (m : Nat) (q : Int) : 0 < reach m q := by
  unfold reach
  split_ifs <;> decide

/-- A whole number that is not too large is its own integer part. -/
theorem toInt64_of_whole (h : Binary.ofFloat x = .finite false m q) (hm : 0 < m) (hq : q ≤ -3)
    (hwhole : isWhole x = true) :
    ∃ n : Nat, toInt64 x = n ∧ (Interval.ofBinary m q).contains n 1 = true := by
  have hlt := (canonical_of_ofFloat h).lt
  obtain ⟨a, c, hac, hone, hi⟩ := ofBinary_eq m q
  cases q with
  | ofNat k => simp at hq; omega
  | negSucc k =>
    obtain ⟨rfl, rfl⟩ : a = 0 ∧ c = k + 1 := by omega
    simp only [isWhole, h, Nat.one_shiftLeft, beq_iff_eq] at hwhole
    have hparts : m / 2 ^ (k + 1) * 2 ^ (k + 1) = m := Nat.div_mul_cancel (Nat.dvd_of_mod_eq_zero hwhole)
    refine ⟨m / 2 ^ (k + 1), ?_, ?_⟩
    · have hle : ((m / 2 ^ (k + 1) : Nat) : Int) ≤ Int64.maxValue.toInt := by
        have hdiv := Nat.div_le_self m (2 ^ (k + 1))
        have hmax : Int64.maxValue.toInt = 2 ^ 63 - 1 := rfl
        omega
      have hge : Int64.minValue.toInt ≤ ((m / 2 ^ (k + 1) : Nat) : Int) :=
        Int.le_trans (b := 0) (by decide) (Int.natCast_nonneg _)
      simp only [toInt64, truncate, h, wholePart, Nat.shiftRight_eq_div_pow, Bool.false_eq_true,
        if_false]
      exact (congrArg _ (min_eq_right hle)).trans (max_eq_right hge)
    · have hunit : m / 2 ^ (k + 1) * (4 * 2 ^ (k + 1)) = 4 * m := by rw [Nat.mul_left_comm, hparts]
      have hreach := reach_pos m (.negSucc k)
      rw [hi]
      refine contains_of_lt ?_ ?_ <;> simp only [hunit] <;> omega

/-- The literal that is written for a length stands for it. -/
theorem denotes_numberLiteral (h : SizeClass.Measures x) : Denotes (Source.numberLiteral x) x := by
  obtain ⟨m, q, hm, hunpack⟩ := unpack_of_measures h
  have hbinary := ofFloat_of_unpack hunpack
  have hnegative : isNegative x = false := by
    rw [← abs_of_unpack hunpack]
    exact isNegative_abs x
  have hwhole {n k : Nat} (hn : (Interval.ofBinary m q).contains (n * 10 ^ k) 1 = true) :
      Denotes (toString n ++ zeros k ++ ".0") x := by
    refine ⟨_, _, m, q, spelled_whole n k, hbinary, ?_⟩
    rw [valueOf_whole]
    exact contains_mul (by decide) hn
  simp only [Source.numberLiteral, abs_of_unpack hunpack, hnegative, Bool.false_and,
    Bool.false_eq_true, if_false]
  split
  · rename_i hsmall
    obtain ⟨hint, hlt⟩ := Bool.and_eq_true_iff.mp hsmall
    have hq := exponent_le_of_lt hunpack (of_decide_eq_true hlt)
    obtain ⟨n, hn, hin⟩ := toInt64_of_whole hbinary hm hq hint
    rw [hn, show toString (n : Int) ++ ".0" = toString n ++ zeros 0 ++ ".0" by simp [zeros]; rfl]
    exact hwhole (by simpa using hin)
  · have hin := contains_shortest .up hm (canonical_of_ofFloat hbinary).lt q
    have hrender : render .plain x =
        placePoint false (toString (shortest .up m q).significand) (shortest .up m q).exponent := by
      simp only [render, hbinary, hm.ne', if_false, Bool.false_eq_true, String.empty_append]
      rfl
    rw [hrender]
    generalize shortest .up m q = digits at hin
    obtain ⟨n, e⟩ := digits
    cases e with
    | ofNat k =>
      have htext : placePoint false (toString n) (.ofNat k) = toString n ++ zeros k := String.append_empty
      rw [htext, if_neg]
      · exact hwhole hin
      · rw [contains_iff_mem]
        exact fun hpoint => absurd ((spelled_whole n k).whole _ hpoint) (by decide)
    | negSucc k =>
      obtain ⟨whole, fraction, htext, hvalue, hlength⟩ := spelled_placed n k
      rw [if_pos (by rw [contains_iff_mem, htext.text_eq]; simp)]
      refine ⟨whole, fraction, m, q, htext, hbinary, ?_⟩
      rw [hvalue, hlength]
      simpa [step] using hin

end Widgetry.Decimal
