import Mathlib.Data.List.Basic
import Widgetry.Expr.Value

/-!
# Slices of text

A slice is computed in signed 64-bit arithmetic, with positions limited to the text. Taking the same
steps with every sum and difference checked against its range shows that no check fails; what comes
out are exactly the characters at the positions that are asked for.
-/

namespace Widgetry.Slice

open List

/-! ### The arithmetic -/

/-- A signed 64-bit integer, if the value is one. -/
def word? (x : Int) : Option Int :=
  if Int64.minValue.toInt ≤ x ∧ x ≤ Int64.maxValue.toInt then some x else none

/-- A number of characters, if the value is not negative. -/
def count? (x : Int) : Option Nat := if 0 ≤ x then some x.toNat else none

/-- Addition that stops at the smallest and the largest signed 64-bit integer. -/
def addSaturating (x y : Int) : Int := max Int64.minValue.toInt (min Int64.maxValue.toInt (x + y))

def first? (size : Int) (start : Float) : Option Int := do
  let a ← word? (Decimal.toInt64 start)
  word? (max 0 (min a size))

def last? (size first : Int) : Option Float → Option Int
  | some length => do
      let n ← word? (Decimal.toInt64 length)
      word? (min (addSaturating first (max n 0)) size)
  | none => some size

def cut? (cs : List Char) (first last : Int) : Option String := do
  let width ← word? (last - first)
  let skipped ← count? first
  let taken ← count? width
  return String.ofList ((cs.drop skipped).take taken)

/-- The slice with its numbers checked at each step. -/
def checked (s : String) (start : Float) (length : Option Float) : Option String := do
  let size ← word? s.toList.length
  let first ← first? size start
  let last ← last? size first length
  cut? s.toList first last

theorem word?_eq_some {x : Int} (hlo : Int64.minValue.toInt ≤ x) (hhi : x ≤ Int64.maxValue.toInt) :
    word? x = some x := if_pos ⟨hlo, hhi⟩

theorem count?_eq_some {x : Int} (h : 0 ≤ x) : count? x = some x.toNat := if_pos h

theorem minValue_le_zero : Int64.minValue.toInt ≤ 0 := by decide

theorem word?_toInt64 (x : Float) : word? (Decimal.toInt64 x) = some (Decimal.toInt64 x) := by
  have hlo := minValue_le_zero
  have hhi : 0 ≤ Int64.maxValue.toInt := by decide
  unfold Decimal.toInt64 Decimal.truncate
  apply word?_eq_some
  all_goals
    dsimp only
    split
    · assumption
    · split <;> omega
    · omega

variable {size first : Int}

theorem first?_eq (hlo : 0 ≤ size) (hhi : size ≤ Int64.maxValue.toInt) (start : Float) :
    first? size start = some (max 0 (min (Decimal.toInt64 start) size)) := by
  have hmin := minValue_le_zero
  rw [first?, word?_toInt64]
  exact word?_eq_some (by omega) (by omega)

theorem last?_some (hfirst : 0 ≤ first) (hlo : 0 ≤ size) (hhi : size ≤ Int64.maxValue.toInt)
    (n : Float) : last? size first (some n) =
      some (min (min (first + max (Decimal.toInt64 n) 0) Int64.maxValue.toInt) size) := by
  have hmin := minValue_le_zero
  rw [last?, word?_toInt64]
  refine (word?_eq_some ?_ ?_).trans (congrArg some ?_)
  all_goals
    unfold addSaturating
    omega

theorem cut?_eq {last : Int} (hfirst : 0 ≤ first) (hle : first ≤ last)
    (hlast : last ≤ Int64.maxValue.toInt) (cs : List Char) : cut? cs first last =
      some (String.ofList ((cs.drop first.toNat).take (last - first).toNat)) := by
  have hmin := minValue_le_zero
  rw [cut?, word?_eq_some (by omega) (by omega), count?_eq_some hfirst]
  simp [count?_eq_some (Int.sub_nonneg_of_le hle)]

variable {s : String} (hs : s.toList.length ≤ Int64.maxValue.toInt)
include hs

/-- No number leaves its range on the way to a slice. -/
theorem checked_eq (start : Float) (length : Option Float) :
    checked s start length = some (substring s start length) := by
  have hmin := minValue_le_zero
  have hsize : (0 : Int) ≤ s.toList.length := Int.natCast_nonneg _
  rw [checked, word?_eq_some (by omega) hs, Option.bind_eq_bind, Option.bind_some,
    first?_eq hsize hs, Option.bind_some]
  cases length with
  | none => exact cut?_eq (by omega) (by omega) hs s.toList
  | some n =>
    rw [last?_some (by omega) hsize hs]
    exact cut?_eq (by omega) (by omega) (by omega) s.toList

/-! ### The characters -/

theorem toList_substring_some (start n : Float) :
    (substring s start (some n)).toList =
      (s.toList.drop (Decimal.toInt64 start).toNat).take (Decimal.toInt64 n).toNat := by
  rw [substring, String.toList_ofList]
  generalize Decimal.toInt64 start = a
  generalize Decimal.toInt64 n = n
  simp only [Int.ofNat_eq_natCast]
  by_cases ha : a ≤ s.toList.length
  · have hfirst : (max 0 (min a s.toList.length)).toNat = a.toNat := by omega
    rw [hfirst, take_eq_take_iff, length_drop]
    omega
  · rw [drop_of_length_le (by omega), drop_of_length_le (by omega), take_nil, take_nil]

omit hs

theorem toList_substring_none (s : String) (start : Float) :
    (substring s start none).toList = s.toList.drop (Decimal.toInt64 start).toNat := by
  rw [substring, String.toList_ofList]
  generalize Decimal.toInt64 start = a
  simp only [Int.ofNat_eq_natCast]
  by_cases ha : a ≤ s.toList.length
  · have hfirst : (max 0 (min a s.toList.length)).toNat = a.toNat := by omega
    rw [hfirst, take_of_length_le (by rw [length_drop]; omega)]
  · rw [drop_of_length_le (by omega), drop_of_length_le (by omega), take_nil]

/-- The characters at the positions from `lo` on that stand below `hi`, if there is such a bound. -/
def between (cs : List Char) (lo : Int) (hi : Option Int) : List Char :=
  (cs.zipIdx.filter fun x => lo ≤ x.2 && hi.all fun h => x.2 < h).map Prod.fst

theorem map_fst_filter_zipIdx (cs : List Char) (k lo hi : Nat) :
    ((cs.zipIdx k).filter fun x => lo ≤ x.2 && x.2 < hi).map Prod.fst =
      (cs.drop (lo - k)).take (hi - max lo k) := by
  induction cs generalizing k with
  | nil => simp
  | cons c cs ih =>
    rw [zipIdx_cons, filter_cons]
    by_cases hlo : lo ≤ k
    · by_cases hhi : k < hi
      · have hrest : hi - max lo k = hi - max lo (k + 1) + 1 := by omega
        rw [if_pos (by simp [hlo, hhi]), map_cons, ih, hrest, Nat.sub_eq_zero_of_le hlo,
          Nat.sub_eq_zero_of_le (Nat.le_succ_of_le hlo), drop_zero, drop_zero, take_succ_cons]
      · have hnone : hi - max lo k = 0 ∧ hi - max lo (k + 1) = 0 := by omega
        rw [if_neg (by simp [hhi]), ih, hnone.1, hnone.2, take_zero, take_zero]
    · have hnext : lo - k = lo - (k + 1) + 1 ∧ max lo k = max lo (k + 1) := by omega
      rw [if_neg (by simp [hlo]), ih, hnext.1, hnext.2, drop_succ_cons]

theorem between_eq {cs : List Char} {a : Int} {bound : Option Int} (stop : Nat)
    (h : ∀ p < cs.length, (bound.all fun hi => (p : Int) < hi) = decide (p < stop)) :
    between cs (max a 0) bound = (cs.drop a.toNat).take (stop - a.toNat) := by
  have hcut := map_fst_filter_zipIdx cs 0 a.toNat stop
  rw [Nat.sub_zero, Nat.max_zero] at hcut
  rw [← hcut, between]
  refine congrArg _ (filter_congr fun x hx => ?_)
  rw [h x.2 (by simpa using snd_lt_of_mem_zipIdx hx)]
  congr 1
  simp only [decide_eq_decide]
  omega

include hs in
theorem toList_substring (start : Float) (length : Option Float) :
    (substring s start length).toList = between s.toList (max (Decimal.toInt64 start) 0)
      (length.map fun n => max (Decimal.toInt64 start) 0 + max (Decimal.toInt64 n) 0) := by
  cases length with
  | none =>
    rw [toList_substring_none, Option.map_none, between_eq s.toList.length (by simp),
      take_of_length_le (by simp)]
  | some n =>
    rw [toList_substring_some hs, Option.map_some, between_eq
      ((Decimal.toInt64 start).toNat + (Decimal.toInt64 n).toNat), Nat.add_sub_cancel_left]
    intro p _
    simp only [Option.all_some, decide_eq_decide]
    omega

/-- In a text that fits into memory a slice has the characters at the positions asked for, no number
on the way to it leaves its range, and the next slice goes on where it ends. -/
theorem substring_slices (s : String) (hs : s.toList.length ≤ Int64.maxValue.toInt)
    (start : Float) :
    (∀ length, checked s start length = some (substring s start length)) ∧
    (∀ length, (substring s start length).toList = between s.toList (max (Decimal.toInt64 start) 0)
      (length.map fun n => max (Decimal.toInt64 start) 0 + max (Decimal.toInt64 n) 0)) ∧
    ∀ length next, 0 ≤ Decimal.toInt64 start → 0 ≤ Decimal.toInt64 length →
      Decimal.toInt64 next = Decimal.toInt64 start + Decimal.toInt64 length →
        substring s start (some length) ++ substring s next none = substring s start none := by
  refine ⟨checked_eq hs start, toList_substring hs start, ?_⟩
  intro length next hstart hlength hnext
  apply String.toList_inj.mp
  rw [String.toList_append, toList_substring_some hs, toList_substring_none, toList_substring_none,
    hnext, Int.toNat_add hstart hlength, ← drop_drop, take_append_drop]

theorem substring_slices_word :
    "añb⌘z".toList.length ≤ Int64.maxValue.toInt ∧ Decimal.toInt64 1.5 = 1 ∧ Decimal.toInt64 2 = 2 ∧
      Decimal.toInt64 3 = 3 ∧
      substring "añb⌘z" 1.5 (some 2) ++ substring "añb⌘z" 3 none = substring "añb⌘z" 1.5 none := by
  have hfits : "añb⌘z".toList.length ≤ Int64.maxValue.toInt := by decide
  have hread : Decimal.toInt64 1.5 = 1 ∧ Decimal.toInt64 2 = 2 ∧ Decimal.toInt64 3 = 3 := by
    decide +kernel
  obtain ⟨hstart, hlength, hnext⟩ := hread
  refine ⟨hfits, hstart, hlength, hnext, (substring_slices "añb⌘z" hfits 1.5).2.2 2 3 ?_ ?_ ?_⟩
  all_goals omega

end Widgetry.Slice
